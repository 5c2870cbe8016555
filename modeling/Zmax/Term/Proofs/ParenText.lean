/-
What paren mode keeps of a text.

The lines that are out are scanned to what was put in them (`Rescanned`),
so that the text has the same solid cells in the same order, and with them
the same brackets, and its lines are as far right as they were put.
-/
import Zmax.Term.Proofs.IndentText
import Zmax.Term.Proofs.ParenLines

namespace Zmax.Parinfer

variable {nested : Prop} {inString : Bool} {lines : List LineScan}
  {moved : Tendril} {state : ParenState} {ds : List Done}
  {raws rendered : List Tendril} {code : List Cell} {comment : Tendril}
  {t pos : Pos}

-- == balance

theorem validateCells_pair (i : Nat) {cells : List Cell}
    {self self' : Brackets} (h : validateCells i cells self = .ok self')
    (hextra : self'.extraClose = false) :
    self.extraClose = false
      ∧ pair (brackets cells) self.stack = some self'.stack := by
  induction cells generalizing self with
  | nil =>
      cases h
      exact ⟨hextra, rfl⟩
  | cons cell cells ih =>
      unfold validateCells at h
      by_cases hopen : cell.isOpen = true
      · rw [if_pos hopen] at h
        obtain ⟨hself, hpair⟩ := ih h
        exact ⟨hself, (pair_open hopen cells _).trans hpair⟩
      · rw [if_neg hopen] at h
        by_cases hclose : cell.isClose = true
        · rw [if_pos hclose] at h
          rw [pair_close hclose]
          obtain ⟨stack, extraClose⟩ := self
          cases stack with
          | nil => cases (ih h).1
          | cons opener stack =>
              dsimp only at h ⊢
              by_cases hkind : closerFor opener = cell.char
              · rw [if_pos hkind] at h ⊢
                exact ih h
              · cases (if_neg hkind).symm.trans h
        · rw [if_neg hclose] at h
          rw [brackets_other hopen hclose]
          exact ih h

theorem validateLines_pair (i : Nat) {self self' : Brackets}
    (h : validateLines i lines self = .ok self')
    (hextra : self'.extraClose = false) :
    self.extraClose = false
      ∧ pair (lines.flatMap fun l => brackets l.cells) self.stack
        = some self'.stack := by
  induction lines generalizing i self with
  | nil =>
      cases h
      exact ⟨hextra, rfl⟩
  | cons l lines ih =>
      unfold validateLines at h
      cases hcells : validateCells i l.cells self with
      | error e =>
          rw [hcells] at h
          cases h
      | ok mid =>
          rw [hcells] at h
          obtain ⟨hmid, hrest⟩ := ih (i + 1) h
          obtain ⟨hself, hfirst⟩ := validateCells_pair i hcells hmid
          refine ⟨hself, ?_⟩
          rw [List.flatMap_cons, pair_append, hfirst]
          exact hrest

theorem pair_of_validate (h : validate lines = .ok true) :
    pair (lines.flatMap fun l => brackets l.cells) [] = some [] := by
  unfold validate at h
  cases hlines : validateLines 0 lines ⟨[], false⟩ with
  | error e =>
      rw [hlines] at h
      cases h
  | ok self =>
      rw [hlines] at h
      have h : (if lines.getLast?.any LineScan.endsInString = true
        then Except.error "unclosed string".toList
        else .ok (self.stack.isEmpty && !self.extraClose)) = .ok true := h
      split at h
      · cases h
      · have hboth := Except.ok.inj h
        rw [Bool.and_eq_true, List.isEmpty_iff, Bool.not_eq_true'] at hboth
        rw [(validateLines_pair 0 hlines hboth.2).2, hboth.1]

/-- Live brackets are among the solid cells. -/
theorem flatMap_brackets (inString : Bool) (raws : List Tendril) :
    (scanLines inString raws).flatMap (fun l => brackets l.cells)
      = brackets ((scanLines inString raws).flatMap solids) := by
  induction raws generalizing inString with
  | nil => rfl
  | cons raw raws ih =>
      obtain ⟨code, comment, t, hreads, -⟩ := scanLine_reads inString raw
      unfold scanLines
      rw [List.flatMap_cons, List.flatMap_cons, brackets_append, ih,
        hreads.solids, brackets_solid, hreads.cells, brackets_append,
        brackets_inert, List.append_nil]

-- == runs

theorem ParenInv.run (h : ParenInv nested inString lines [] state ds)
    (hpair : (pair (brackets ((lines ++ scanLines inString raws).flatMap
      Parinfer.solids)) []).isSome)
    (hnested : nested → Nested (scanLines inString raws) state) :
    ∃ ds', ParenInv nested (stringAfter inString raws)
      (lines ++ scanLines inString raws) []
      ((scanLines inString raws).foldl parenLine state) ds' := by
  induction raws generalizing inString lines state ds with
  | nil =>
      refine ⟨ds, ?_⟩
      unfold scanLines
      rwa [List.append_nil]
  | cons raw raws ih =>
      obtain ⟨code, comment, t, hreads, -⟩ := scanLine_reads inString raw
      unfold scanLines at hpair hnested ⊢
      have hall : lines ++ scanLine inString raw
          :: scanLines (scanLine inString raw).endsInString raws
          = lines ++ [scanLine inString raw]
            ++ scanLines (scanLine inString raw).endsInString raws :=
        (List.append_cons ..)
      rw [hall] at hpair ⊢
      have hstep : ∃ ds', ParenInv nested (scanLine inString raw).endsInString
          (lines ++ [scanLine inString raw]) []
          (parenLine state (scanLine inString raw)) ds' := by
        cases inString with
        | true => exact h.string hreads rfl fun hn => (hnested hn).1 rfl
        | false =>
            refine h.line hreads rfl ?_
            rw [List.flatMap_append, brackets_append, pair_append] at hpair
            cases hfirst : pair (brackets ((lines
              ++ [scanLine false raw]).flatMap Parinfer.solids)) [] with
            | none =>
                rw [hfirst] at hpair
                cases hpair
            | some left => rfl
      obtain ⟨ds', hstep⟩ := hstep
      exact ih hstep hpair fun hn => (hnested hn).2

-- == the lines out

/-- A line as it is scanned from what was put out for it. -/
structure Rescanned (l : LineScan) (d : Done) : Prop where
  starts : l.startsInString = d.line.startsInString
  ends : l.endsInString = d.line.endsInString
  solids : Parinfer.solids l = d.solids
  comment : lineComment l = lineComment d.line
  forms : ∀ stack, stringBrackets l.cells 0 stack = d.forms stack
  indent : d.kept ≠ [] ∨ lineComment l ≠ [] →
    d.out.indent.length ≤ (splitLine l).indentLen
  coded : Parinfer.solids l ≠ [] → d.kept ≠ []

theorem Reads.lineComment {l : LineScan} (h : Reads l code comment t) :
    lineComment l = comment := by
  unfold Parinfer.lineComment
  exact h.drop_codeEnd

theorem Put.rescanned {d : Done} (h : Put d code comment t pos)
    (hsealed : escapedAfter false d.out.code = true → d.out.closers = []) :
    Rescanned (scanLine d.line.startsInString d.out.render) d := by
  have hesc : pos.escaped = true → d.out.closers = [] := by
    intro hpos
    refine hsealed ?_
    rw [h.code_eq]
    exact h.marks.escapedAfter.symm.trans hpos
  obtain ⟨pre, post, t', hreads, hin, hpre, hpost, hlen⟩ := h.render hesc
  have hclosers := solid_allLive h.closers
  have hsolids : Parinfer.solids (scanLine d.line.startsInString
      d.out.render) = d.solids := by
    rw [hreads.solids, solid_append, solid_append, solid_append,
      solid_eq_nil hpre, solid_eq_nil hpost, hclosers, List.append_nil,
      List.nil_append]
    rfl
  refine ⟨rfl, ?_, hsolids, ?_, fun stack => ?_, fun hne => ?_, ?_⟩
  · rw [hreads.ends, hin, h.reads.ends]
  · rw [hreads.lineComment, h.reads.lineComment]
  · have hother : ∀ cell ∈ post ++ inert comment,
        cell.isBracket = false := by
      intro cell hcell
      rcases List.mem_append.mp hcell with hcell | hcell
      · exact isBracket_of_isWhitespace (hpost cell hcell)
      · obtain ⟨c, -, rfl⟩ := List.mem_map.mp hcell
        rfl
    have hcells : (scanLine d.line.startsInString d.out.render).cells
        = pre ++ (d.kept ++ (allLive d.out.closers
          ++ (post ++ inert comment))) := by
      rw [hreads.cells]
      simp only [List.append_assoc]
    rw [hcells, stringBrackets_append, stringBrackets_append,
      stringBrackets_append, stringBrackets_other hother,
      stringBrackets_closers h.closers,
      stringBrackets_other fun cell hcell =>
        isBracket_of_isWhitespace (hpre cell hcell)]
    unfold Done.forms
    by_cases hkept : d.kept = []
    · rw [hkept]
      rfl
    · rw [hlen (.inl hkept), Nat.zero_add]
  · rw [hreads.lineComment] at hne
    rw [← hlen hne]
    have hcode : (scanLine d.line.startsInString d.out.render).cells.take
        (Parinfer.codeEnd (scanLine d.line.startsInString d.out.render))
        = pre ++ (d.kept ++ allLive d.out.closers ++ post) := by
      rw [hreads.take_codeEnd]
      simp only [List.append_assoc]
    unfold splitLine
    dsimp only
    rw [hcode, List.takeWhile_append_of_pos hpre, List.length_append]
    exact Nat.le_add_right _ _
  · intro hne hkept
    rw [hsolids] at hne
    unfold Done.solids at hne
    rw [hkept] at hne
    refine h.coded (fun hnil => hne ?_) hkept
    rw [hnil]
    rfl

/-- What lines have in common with the lines that paren mode puts out for
them. -/
structure ParenKept (nested : Prop) (raws rendered : List Tendril) :
    Prop where
  string : stringAfter false rendered = stringAfter false raws
  solids : (scanLines false rendered).flatMap Parinfer.solids
    = (scanLines false raws).flatMap Parinfer.solids
  comments : (scanLines false rendered).map lineComment
    = (scanLines false raws).map lineComment
  coded : Indented (fun l => Parinfer.solids l ≠ [])
    (scanLines false rendered) []
  commented : nested →
    Indented (fun l => Parinfer.solids l ≠ [] ∨ lineComment l ≠ [])
      (scanLines false rendered) []
  newline : (∀ raw ∈ raws, '\n' ∉ raw) → ∀ line ∈ rendered, '\n' ∉ line

/-- Lines that are put right of what is open are indented to be. -/
theorem Placed.indented {f : Done → LineScan} {stack : List OpenAt}
    (h : Placed nested ds stack)
    (hf : ∀ d ∈ ds, Rescanned (f d) d ∧ (lineComment (f d) ≠ [] →
      d.out.comment ≠ [])) :
    Indented (fun l => Parinfer.solids l ≠ []) (ds.map f) stack
      ∧ (nested → Indented
        (fun l => Parinfer.solids l ≠ [] ∨ lineComment l ≠ [])
        (ds.map f) stack) := by
  induction ds generalizing stack with
  | nil => exact ⟨trivial, fun _ => trivial⟩
  | cons d ds ih =>
      obtain ⟨hplaced, hrest⟩ := h
      obtain ⟨⟨hd, hcomment⟩, hds⟩ := List.forall_mem_cons.mp hf
      rw [← hd.forms] at hrest
      obtain ⟨hcoded, hcommented⟩ := ih hrest hds
      have hhead : (f d).startsInString = false → d.kept ≠ [] →
          ∀ form ∈ stack.head?, form.2 < (splitLine (f d)).indentLen := by
        intro hstarts hkept form hform
        exact Nat.lt_of_lt_of_le ((hplaced (hd.starts ▸ hstarts)).1 hkept
          form hform) (hd.indent (.inl hkept))
      refine ⟨⟨fun hstarts hne => hhead hstarts (hd.coded hne), hcoded⟩,
        fun hn => ⟨fun hstarts hne => ?_, hcommented hn⟩⟩
      by_cases hkept : d.kept = []
      · have hc := hne.resolve_left fun hsolid => hd.coded hsolid hkept
        intro form hform
        exact Nat.lt_of_lt_of_le ((hplaced (hd.starts ▸ hstarts)).2 hn hkept
          (hcomment hc) form (List.mem_of_head? hform)) (hd.indent (.inr hc))
      · exact hhead hstarts hkept

theorem Put.newline_render {d : Done} (h : Put d code comment t pos)
    (hline : '\n' ∉ chars d.line.cells) : '\n' ∉ d.out.render :=
  Parinfer.newline_render h.reads h.raw h.code_eq h.comment_eq
    (fun hc => by cases h.closers _ hc) (h.newline hline) hline

theorem parenMode_kept (nested : Prop)
    (hstring : stringAfter false raws = false)
    (hpair : (pair (brackets ((scanLines false raws).flatMap
      Parinfer.solids)) []).isSome)
    (hsealed : ∀ o ∈ (parenMode (scanLines false raws)).1,
      escapedAfter false o.code = true → o.closers = [])
    (hnested : nested → Nested (scanLines false raws) ⟨[], [], [], none⟩) :
    ParenKept nested raws
      ((parenMode (scanLines false raws)).1.map OutLine.render) := by
  obtain ⟨ds, hrun⟩ := ParenInv.start.run hpair hnested
  rw [hstring, List.nil_append] at hrun
  have hout : ds.map Done.out = (parenMode (scanLines false raws)).1 :=
    hrun.out
  rw [← hout] at hsealed ⊢
  rw [List.map_map]
  let f : Done → LineScan := fun d =>
    scanLine d.line.startsInString d.out.render
  have hf : ∀ d ∈ ds, Rescanned (f d) d
      ∧ (lineComment (f d) ≠ [] → d.out.comment ≠ []) := by
    intro d hd
    obtain ⟨code, comment, t, pos, hput⟩ := hrun.put d hd
    have hscan := hput.rescanned (hsealed d.out (List.mem_map_of_mem hd))
    refine ⟨hscan, fun hne => ?_⟩
    rw [hscan.comment, hput.reads.lineComment] at hne
    rw [hput.comment_eq]
    exact hne
  obtain ⟨hscan, hafter⟩ := scanLines_render hrun.lines
    fun d hd => (hf d hd).1.ends
  obtain ⟨hcoded, hcommented⟩ := hrun.placed.indented hf
  have hscan : scanLines false (ds.map (OutLine.render ∘ Done.out))
      = ds.map f := hscan
  refine ⟨hafter, ?_, ?_, ?_, ?_, ?_⟩
  · rw [hscan, List.flatMap_map, ← hrun.lines, List.flatMap_map]
    exact (List.flatMap_congr fun d hd => (hf d hd).1.solids).trans
      (hrun.solids.trans (List.append_nil _))
  · rw [hscan, ← hrun.lines, List.map_map, List.map_map]
    exact List.map_congr_left fun d hd => (hf d hd).1.comment
  · rw [hscan]
    exact hcoded
  · rw [hscan]
    exact hcommented
  · intro hraws line hline
    obtain ⟨d, hd, rfl⟩ := List.mem_map.mp hline
    obtain ⟨code, comment, t, pos, hput⟩ := hrun.put d hd
    refine hput.newline_render (hraws _ ?_)
    rw [← chars_scanLines false raws, ← hrun.lines, List.map_map]
    exact List.mem_map_of_mem hd

-- == escapes

/-- No closers are behind an escape, and so it stays if some are put into
the last line with code, which does not end in one. -/
structure SealedUp (inString escaped : Bool) (state : ParenState) :
    Prop where
  all : ∀ (idx : Nat) (o : OutLine), state.out[idx]? = some o →
    escapedAfter false o.code = true → o.closers = []
  last : inString = false → ∀ idx, state.lastCode = some idx →
    ∃ o, state.out[idx]? = some o ∧ escapedAfter false o.code = escaped

variable {escaped : Bool} {l : LineScan}

theorem SealedUp.push (h : SealedUp false escaped state) {closers : Tendril}
    (hclosers : closers ≠ [] → escaped = false) (deltas : List Int)
    (stack : List Open) :
    SealedUp false escaped ⟨pushClosers closers state.lastCode state.out,
      deltas, stack, state.lastCode⟩ := by
  cases hlc : state.lastCode with
  | none => exact ⟨h.all, fun _ _ => nofun⟩
  | some last =>
      obtain ⟨o, ho, hcode⟩ := h.last rfl last hlc
      have hget (idx : Nat) : (pushClosers closers (some last) state.out)[idx]?
          = (fun o : OutLine => if last = idx
              then { o with closers := o.closers ++ closers } else o)
            <$> state.out[idx]? :=
        List.getElem?_modify ..
      refine ⟨fun idx o' ho' hesc => ?_, fun _ idx hidx => ?_⟩
      · rw [hget] at ho'
        by_cases hidx : last = idx
        · subst hidx
          rw [ho] at ho'
          obtain rfl := Option.some.inj ho'
          dsimp only at hesc ⊢
          rw [if_pos rfl] at hesc ⊢
          have hold := h.all last o ho hesc
          show o.closers ++ closers = []
          rw [hold]
          by_contra hne
          rw [hclosers hne] at hcode
          exact Bool.false_ne_true (hcode.symm.trans hesc)
        · simp only [if_neg hidx, id_map'] at ho'
          exact h.all idx o' ho' hesc
      · cases hidx
        refine ⟨{ o with closers := o.closers ++ closers }, ?_, hcode⟩
        rw [hget, ho]
        exact congrArg some (if_pos rfl)

/-- A line is added behind the others, itself without closers. -/
theorem SealedUp.add {inString' : Bool} (h : SealedUp inString escaped state)
    {o : OutLine} {state' : ParenState} (hout : state'.out = state.out ++ [o])
    (ho : o.closers = []) {escaped' : Bool}
    (hlast : inString' = false →
      state'.lastCode = some state.out.length
        ∧ escapedAfter false o.code = escaped'
      ∨ inString = false ∧ state'.lastCode = state.lastCode
        ∧ escaped' = escaped) :
    SealedUp inString' escaped' state' := by
  refine ⟨fun idx o' ho' hesc => ?_, fun hin idx hidx => ?_⟩
  · rw [hout] at ho'
    by_cases hlt : idx < state.out.length
    · rw [List.getElem?_append_left hlt] at ho'
      exact h.all idx o' ho' hesc
    · rw [List.getElem?_append_right (Nat.le_of_not_lt hlt)] at ho'
      have hmem := List.mem_of_getElem? ho'
      rw [List.mem_singleton.mp hmem]
      exact ho
  · rw [hout]
    rcases hlast hin with ⟨hcode, hesc⟩ | ⟨hin, hcode, rfl⟩
    · rw [hcode] at hidx
      cases hidx
      exact ⟨o, List.getElem?_concat_length, hesc⟩
    · obtain ⟨o', ho', hesc⟩ := h.last hin idx (hcode.symm.trans hidx)
      refine ⟨o', ?_, hesc⟩
      rw [List.getElem?_append_left (List.getElem?_eq_some_iff.mp ho').1]
      exact ho'

theorem SealedUp.string (h : SealedUp true escaped state)
    (hreads : Reads l code comment t) (hstarts : l.startsInString = true) :
    SealedUp l.endsInString
      (if (Parinfer.solids l).any (fun cell => !cell.isClose) = true
        then endsEscaped l else escaped) (parenLine state l) := by
  have hbody : (takeStringLine l).1.code
      = chars ((l.cells.take (codeEnd l)).rdropWhile Cell.isWhitespace) := rfl
  have hline : (parenLine state l).out = state.out ++ [(takeStringLine l).1]
      ∧ (parenLine state l).lastCode = if (takeStringLine l).2
        then some state.out.length else state.lastCode := by
    unfold parenLine
    rw [if_pos hstarts]
    exact ⟨rfl, rfl⟩
  refine h.add hline.1 rfl fun hends => .inl ?_
  -- the string is closed by a quote, which is code
  have hquote : ∃ cell ∈ code, cell.char = '"' := by
    by_contra hnone
    have hin := hreads.marks.inString_of_quote fun cell hcell hchar =>
      hnone ⟨cell, hcell, hchar⟩
    rw [← hreads.ends, hends, hstarts] at hin
    cases hin
  obtain ⟨cell, hcell, hchar⟩ := hquote
  have hws : cell.isWhitespace = false := by
    refine Bool.eq_false_iff.mpr fun hws => ?_
    exact (isWhitespace_ne hws).2.1 hchar
  have hany : (Parinfer.solids l).any (fun cell => !cell.isClose) = true := by
    rw [hreads.solids]
    refine List.any_eq_true.mpr ⟨cell, List.mem_filter.mpr ⟨hcell, ?_⟩, ?_⟩
    · rw [hws]
      rfl
    · unfold Cell.isClose
      rw [hchar]
      exact congrArg not (Bool.and_false _)
  have htakes : (takeStringLine l).2 = true := by
    unfold takeStringLine
    dsimp only
    rw [hreads.take_codeEnd, hends]
    cases hb : code.rdropWhile Cell.isWhitespace with
    | nil =>
        rw [List.rdropWhile_eq_nil_iff] at hb
        exact absurd (hb cell hcell) (Bool.eq_false_iff.mp hws)
    | cons _ _ => rfl
  rw [hline.2, if_pos htakes, if_pos hany]
  exact ⟨rfl, rfl⟩

variable {gap kept lead pre : List Cell}

theorem ParenParts.lead_any (h : ParenParts l code comment pre lead kept gap) :
    (solid lead).any (fun cell => !cell.isClose) = false := by
  refine List.any_eq_false.mpr fun cell hcell => ?_
  obtain ⟨hmem, hws⟩ := List.mem_filter.mp hcell
  rw [isClose_of_inTrail (h.lead_inTrail cell hmem) (by simpa using hws)]
  exact Bool.false_ne_true

/-- What is kept of a line, unless it is nothing, is no closer at first. -/
theorem ParenParts.kept_any (h : ParenParts l code comment pre lead kept gap) :
    (solid kept).any (fun cell => !cell.isClose) = true ↔ kept ≠ [] := by
  cases kept with
  | nil => exact ⟨nofun, fun hne => absurd rfl hne⟩
  | cons cell kept =>
      refine ⟨fun _ => List.cons_ne_nil _ _, fun _ => ?_⟩
      obtain ⟨hws, hclose⟩ := h.head cell rfl
      refine List.any_eq_true.mpr ⟨cell, List.mem_filter.mpr
        ⟨List.mem_cons_self, ?_⟩, ?_⟩
      · rw [hws]
        rfl
      · rw [hclose]
        rfl

theorem rdropWhile_append {α : Type} {p : α → Bool} {ys : List α}
    (h : ∀ y ∈ ys, p y = true) (xs : List α) :
    (xs ++ ys).rdropWhile p = xs.rdropWhile p := by
  unfold List.rdropWhile
  rw [List.reverse_append, List.dropWhile_append_of_pos fun y hy =>
    h y (List.mem_reverse.mp hy)]

theorem ParenParts.endsEscaped
    (h : ParenParts l code comment pre lead kept gap)
    (hm : Marks ⟨false, false⟩ code t) (hkept : kept ≠ []) :
    escapedAfter false (chars (code.rdropWhile Cell.isWhitespace))
      = escapedAfter false (chars kept) := by
  have hbody : code.rdropWhile Cell.isWhitespace = pre ++ lead ++ kept := by
    rw [h.code_eq, rdropWhile_append h.gap_ws, List.rdropWhile_eq_self_iff]
    intro hne
    rw [List.getLast_append_of_ne_nil hne hkept]
    exact Bool.eq_false_iff.mp (h.last _ (List.getLast?_eq_some_getLast hkept))
  rw [h.code_eq] at hm
  obtain ⟨pos, hm, -⟩ := hm.split
  obtain ⟨mid, hlead, hk⟩ := hm.split
  have hmid := hlead.inTrail rfl fun cell hcell => by
    rcases List.mem_append.mp hcell with hcell | hcell
    · exact inTrail_of_isWhitespace (h.pre_ws cell hcell)
    · exact h.lead_inTrail cell hcell
  subst hmid
  rw [hbody, ← hk.escapedAfter]
  exact hm.escapedAfter.symm

theorem SealedUp.line (h : SealedUp false escaped state)
    (hreads : Reads l code comment t) (hstarts : l.startsInString = false)
    (hclose : (Parinfer.solids l).head?.any Cell.isClose = true →
      escaped = false) :
    SealedUp l.endsInString
      (if (Parinfer.solids l).any (fun cell => !cell.isClose) = true
        then endsEscaped l else escaped) (parenLine state l) := by
  obtain ⟨pre, lead, kept, gap, hparts⟩ := exists_parenParts hreads
  have hsolids : Parinfer.solids l = solid lead ++ solid kept :=
    hreads.solids.trans hparts.solid_eq
  obtain ⟨hlead, hclosers⟩ := solid_inTrail hparts.lead_inTrail
  have hmoved : parenMoved l ≠ [] → escaped = false := by
    intro hne
    refine hclose ?_
    rw [hparts.moved_eq] at hne
    obtain ⟨c, cs, hcs⟩ := List.exists_cons_of_ne_nil hne
    rw [hsolids, hlead, hcs]
    exact hclosers c (hcs ▸ List.mem_cons_self)
  have hpushed := h.push hmoved state.deltas
    (state.stack.drop (parenMoved l).length)
  have hany : (Parinfer.solids l).any (fun cell => !cell.isClose) = true
      ↔ kept ≠ [] := by
    rw [hsolids, List.any_append, hparts.lead_any, Bool.false_or]
    exact hparts.kept_any
  have hline := parenLine_code hparts hstarts state rfl rfl
  by_cases hkept : kept = []
  · rw [if_neg fun hsolid => hany.mp hsolid hkept]
    by_cases hblank : kept = [] ∧ comment = []
    · rw [hline, if_pos hblank]
      exact hpushed.add rfl rfl fun _ => .inr ⟨rfl, rfl, rfl⟩
    · rw [hline, if_neg hblank]
      exact hpushed.add rfl rfl fun _ => .inr ⟨rfl, if_pos hkept, rfl⟩
  · have hmarks := hreads.marks
    rw [hstarts] at hmarks
    rw [if_pos (hany.mpr hkept), hline, if_neg fun hblank => hkept hblank.1]
    refine hpushed.add rfl rfl fun _ => .inl ⟨(if_neg hkept).trans ?_, ?_⟩
    · have hlen : (pushClosers (parenMoved l) state.lastCode
          state.out).length = state.out.length := by
        unfold pushClosers
        split
        · exact List.length_modify _ _ _
        · rfl
      exact congrArg some hlen.symm
    · unfold endsEscaped
      rw [hreads.take_codeEnd]
      exact (hparts.endsEscaped hmarks hkept).symm

/-- No closers come behind an escape. -/
theorem SealedUp.run (h : SealedUp inString escaped state)
    (hunescaped : Unescaped (scanLines inString raws) escaped) :
    ∃ escaped', SealedUp (stringAfter inString raws) escaped'
      ((scanLines inString raws).foldl parenLine state) := by
  induction raws generalizing inString escaped state with
  | nil => exact ⟨escaped, h⟩
  | cons raw raws ih =>
      obtain ⟨code, comment, t, hreads, -⟩ := scanLine_reads inString raw
      obtain ⟨hclose, hrest⟩ := hunescaped
      refine ih ?_ hrest
      cases inString with
      | true => exact h.string hreads rfl
      | false => exact h.line hreads rfl (hclose rfl)

theorem SealedUp.start : SealedUp false escaped ⟨[], [], [], none⟩ :=
  ⟨fun _ _ => nofun, fun _ _ => nofun⟩

theorem parenMode_sealed (h : Unescaped (scanLines false raws) false) :
    ∀ o ∈ (parenMode (scanLines false raws)).1,
      escapedAfter false o.code = true → o.closers = [] := by
  obtain ⟨escaped, hrun⟩ := SealedUp.start.run h
  intro o ho
  obtain ⟨idx, hidx⟩ := List.mem_iff_getElem?.mp ho
  exact hrun.all idx o hidx

-- == the text

theorem ParenKept.ne_nil (h : ParenKept nested raws rendered)
    (hne : raws ≠ []) : rendered ≠ [] := by
  rintro rfl
  obtain ⟨raw, raws, rfl⟩ := List.exists_cons_of_ne_nil hne
  cases h.comments

theorem Indented.append {kind : LineScan → Prop} {xs ys : List LineScan}
    {stack : List OpenAt} (h : Indented kind xs stack)
    (hys : ∀ l ∈ ys, ¬ kind l) : Indented kind (xs ++ ys) stack := by
  induction xs generalizing stack with
  | nil =>
      induction ys generalizing stack with
      | nil => trivial
      | cons l ys ih =>
          obtain ⟨hl, hys⟩ := List.forall_mem_cons.mp hys
          exact ⟨fun _ hkind => absurd hkind hl, ih hys trivial⟩
  | cons l xs ih => exact ⟨h.1, ih h.2⟩

/-- A newline at the end starts a line with nothing in it. -/
theorem ParenKept.ended (h : ParenKept nested raws rendered)
    (hstring : stringAfter false raws = false) :
    ParenKept nested (raws ++ [[]]) (rendered ++ [[]]) := by
  have hafter := h.string.trans hstring
  have hout : scanLines false (rendered ++ [[]])
      = scanLines false rendered ++ scanLines false [[]] := by
    rw [scanLines_append, hafter]
  have hin : scanLines false (raws ++ [[]])
      = scanLines false raws ++ scanLines false [[]] := by
    rw [scanLines_append, hstring]
  refine ⟨?_, ?_, ?_, ?_, fun hn => ?_, ?_⟩
  · rw [stringAfter_append, stringAfter_append, h.string]
  · rw [hout, hin, List.flatMap_append, List.flatMap_append, h.solids]
  · rw [hout, hin, List.map_append, List.map_append, h.comments]
  · rw [hout]
    exact h.coded.append (by decide)
  · rw [hout]
    exact (h.commented hn).append (by decide)
  · intro hraws line hline
    rcases List.mem_append.mp hline with hline | hline
    · exact h.newline (fun raw hraw => hraws raw
        (List.mem_append_left _ hraw)) line hline
    · rw [List.mem_singleton.mp hline]
      exact nofun

theorem process_paren {text : Tendril} (opts : Options)
    (h : validate (bodyLines text) = .ok true) :
    (process text .paren opts).error = none
      ∧ (process text .paren opts).text
        = ended (text.getLast? == some '\n')
          ((parenMode (bodyLines text)).1.map OutLine.render) := by
  have hbody : scan (if (text.getLast? == some '\n') = true
      then text.dropLast else text) = bodyLines text := by
    unfold bodyLines
    simp only [beq_iff_eq]
  unfold process
  dsimp only
  rw [hbody, h]
  exact ⟨rfl, rfl⟩

/-- What paren mode puts out for a balanced text is balanced. It has the
same solid cells in the same order, and each line keeps its comment. Lines
with code are indented right of the innermost bracket that is open, and so
are those with only a comment, if strings that span lines open no bracket
left of one that is open. -/
theorem paren_mode_law {text : Tendril} (opts : Options)
    (hbalanced : validate (bodyLines text) = .ok true)
    (hunescaped : Unescaped (bodyLines text) false) :
    let out := scan (process text .paren opts).text
    (process text .paren opts).error = none
      ∧ validate out = .ok true
      ∧ out.flatMap solids = (scan text).flatMap solids
      ∧ out.map lineComment = (scan text).map lineComment
      ∧ Indented (fun l => solids l ≠ []) out []
      ∧ (Nested (bodyLines text) ⟨[], [], [], none⟩ →
        Indented (fun l => solids l ≠ [] ∨ lineComment l ≠ []) out []) := by
  obtain ⟨herror, hprocess⟩ := process_paren opts hbalanced
  obtain ⟨raws, hadNewline, hne, hnewline, htext, hbody, hlast⟩ :=
    exists_ended text
  have hpair := pair_of_validate hbalanced
  rw [hbody] at hbalanced hunescaped hprocess hpair ⊢
  rw [hlast] at hprocess
  rw [flatMap_brackets] at hpair
  have hstring := stringAfter_of_validate hne hbalanced
  have hkept := parenMode_kept (Nested (scanLines false raws) ⟨[], [], [],
    none⟩) hstring (Option.isSome_iff_exists.mpr ⟨[], hpair⟩)
    (parenMode_sealed hunescaped) id
  have hall : ParenKept (Nested (scanLines false raws) ⟨[], [], [], none⟩)
      (raws ++ if hadNewline then [[]] else [])
      ((parenMode (scanLines false raws)).1.map OutLine.render
        ++ if hadNewline then [[]] else []) := by
    cases hadNewline with
    | true => exact hkept.ended hstring
    | false =>
        rw [if_neg nofun, List.append_nil, List.append_nil]
        exact hkept
  have hsame : (scanLines false (raws ++ if hadNewline then [[]]
      else [])).flatMap solids = (scanLines false raws).flatMap solids := by
    rw [scanLines_append, hstring, List.flatMap_append]
    cases hadNewline <;> exact List.append_nil _
  refine ⟨herror, ?_⟩
  rw [hprocess, htext, scan_ended hadNewline (hkept.ne_nil hne)
    (hkept.newline hnewline), scan_ended hadNewline hne hnewline]
  refine ⟨validate_ok ?_ ?_, hall.solids, hall.comments, hall.coded,
    hall.commented⟩
  · rw [flatMap_brackets, hall.solids, hsame]
    exact hpair
  · rw [stringAfter_eq (List.append_ne_nil_of_left_ne_nil
      (hkept.ne_nil hne) _), stringAfter_append, hkept.string, hstring]
    cases hadNewline <;> rfl

/-- Closers that a line begins with, behind a comment and behind a string
over two lines. -/
def formText : Tendril :=
  "(def f ; c\n[x\n] \"a (\n b\" (g\n;d\n) )\n".toList

theorem paren_mode_law_form :
    let out := scan (process formText .paren ⟨none, none⟩).text
    (process formText .paren ⟨none, none⟩).error = none
      ∧ validate out = .ok true
      ∧ out.flatMap solids = (scan formText).flatMap solids
      ∧ out.map lineComment = (scan formText).map lineComment
      ∧ Indented (fun l => solids l ≠ []) out []
      ∧ (Nested (bodyLines formText) ⟨[], [], [], none⟩ →
        Indented (fun l => solids l ≠ [] ∨ lineComment l ≠ []) out []) :=
  paren_mode_law ⟨none, none⟩ (by decide) (by decide)

/-- A closer goes up to before the comment of the line: `(;` and `)` come
out as `();`. -/
theorem not_paren_mode_law_comment :
    validate (bodyLines "(;\n)".toList) = .ok true
      ∧ (process "(;\n)".toList .paren ⟨none, none⟩).error = none
      ∧ (process "(;\n)".toList .paren ⟨none, none⟩).text.filter
          (fun c => !Text.isWhitespace c)
        ≠ "(;\n)".toList.filter (fun c => !Text.isWhitespace c) := by
  decide

end Zmax.Parinfer
