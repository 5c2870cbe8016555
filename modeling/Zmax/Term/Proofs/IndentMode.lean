/-
What indent mode keeps.

Of each line a part is kept as it is; around it only whitespace and live
closers go, in it only live closers (`Drops`), and closers come behind it.
None of this moves a scan, so a line comes out scanned as it was
(`Made.render`), unless a backslash escapes the first of what comes.

The brackets of the lines that are out leave open what indent mode has on
its stack (`Inv.pairs`). Closers go into an earlier line, the last one
with code; no line behind it has brackets (`Inv.last`), so they might as
well be at the end.
-/
import Zmax.Term.Proofs.Brackets

namespace Zmax.Parinfer

variable {s t u : Pos} {cells code kept : List Cell} {comment : Tendril}
  {l : LineScan}

-- == parts of a line

variable {cell : Cell} {pre gap lead trail : List Cell}

theorem isClose_of_inTrail (h : inTrail cell = true)
    (hws : cell.isWhitespace = false) : cell.isClose = true := by
  unfold inTrail at h
  rwa [hws, Bool.false_or] at h

theorem inTrail_ne_quote (h : inTrail cell = true) : cell.char ≠ '"' := by
  cases hws : cell.isWhitespace with
  | true => exact (isWhitespace_ne hws).2.1
  | false =>
      have hclose := isClose_of_inTrail h hws
      exact (isClose_ne (Bool.and_eq_true_iff.mp hclose).2).2.1

/-- Outside of an escape neither whitespace nor closers move a scan. -/
theorem Marks.inTrail (h : Marks s cells t) (hs : s.escaped = false)
    (hall : ∀ cell ∈ cells, inTrail cell = true) : t = s := by
  induction h with
  | nil s => rfl
  | escaped c _ _ => cases hs
  | backslash _ _ => cases hall _ List.mem_cons_self
  | quote _ _ => cases hall _ List.mem_cons_self
  | plain _ _ _ _ ih =>
      exact ih rfl fun cell hcell => hall cell (List.mem_cons_of_mem _ hcell)

theorem drop_of_append {α : Type} {xs ys zs : List α} (h : xs = ys ++ zs) :
    xs.drop ys.length = zs := h ▸ List.drop_left

theorem split_spec (h : Reads l code comment t) :
    ∃ pre body gap, code = pre ++ body ++ gap
      ∧ (∀ cell ∈ pre, cell.isWhitespace = true)
      ∧ (∀ cell ∈ gap, cell.isWhitespace = true)
      ∧ (∀ cell ∈ body.getLast?, cell.isWhitespace = false)
      ∧ (∀ cell ∈ body.head?, cell.isWhitespace = false)
      ∧ (splitLine l).indentLen = pre.length
      ∧ (splitLine l).bodyEnd = pre.length + body.length
      ∧ (splitLine l).gap = chars gap
      ∧ (splitLine l).comment = comment := by
  obtain ⟨gap, hgap, hgapws, hlast⟩ := rdropWhile_spec Cell.isWhitespace
    (code.dropWhile Cell.isWhitespace)
  have hsplit : code = code.takeWhile Cell.isWhitespace
      ++ (code.dropWhile Cell.isWhitespace).rdropWhile Cell.isWhitespace
      ++ gap := by
    rw [List.append_assoc, ← hgap, List.takeWhile_append_dropWhile]
  have hdrop : code.drop (code.takeWhile Cell.isWhitespace).length
      = code.dropWhile Cell.isWhitespace :=
    drop_of_append List.takeWhile_append_dropWhile.symm
  refine ⟨code.takeWhile Cell.isWhitespace, _, gap, hsplit,
    fun cell hcell => List.mem_takeWhile_imp hcell, hgapws, hlast,
    fun cell hcell => ?_, ?_, ?_, ?_, ?_⟩
  · have hsome : (code.dropWhile Cell.isWhitespace).head? = some cell := by
      rw [hgap, List.head?_append, Option.mem_def.mp hcell]
      rfl
    have hhead := List.head?_dropWhile_not Cell.isWhitespace code
    rw [hsome] at hhead
    simpa using hhead
  · unfold splitLine
    rw [h.take_codeEnd]
  · unfold splitLine
    dsimp only
    rw [h.take_codeEnd, hdrop]
  · unfold splitLine
    dsimp only
    rw [h.take_codeEnd, hdrop, ← List.length_append,
      drop_of_append hsplit]
  · exact h.drop_codeEnd

/-- What is not whitespace. -/
def solid (cells : List Cell) : List Cell :=
  cells.filter fun cell => !cell.isWhitespace

theorem solid_append (xs ys : List Cell) :
    solid (xs ++ ys) = solid xs ++ solid ys := List.filter_append ..

theorem solid_eq_nil (h : ∀ cell ∈ cells, cell.isWhitespace = true) :
    solid cells = [] := by
  refine List.filter_eq_nil_iff.mpr fun cell hcell => ?_
  rw [h cell hcell]
  exact Bool.false_ne_true

theorem movedLoop_spec (cells before : List Cell) (start : Nat)
    (hbefore : ∀ cell ∈ before, cell.isWhitespace = true) :
    ∃ lead rest, before ++ cells = lead ++ rest
      ∧ movedLoop cells start (start + before.length)
        = (chars (solid lead), start + lead.length)
      ∧ (∀ cell ∈ lead, inTrail cell = true)
      ∧ (chars (solid lead) = [] → lead = [])
      ∧ ∀ cell ∈ (rest.dropWhile Cell.isWhitespace).head?,
        cell.isClose = false := by
  induction cells generalizing before start with
  | nil =>
      refine ⟨[], before, List.append_nil _, rfl, nofun, fun _ => rfl, ?_⟩
      rw [List.dropWhile_eq_nil_iff.mpr hbefore]
      exact nofun
  | cons cell cells ih =>
      unfold movedLoop
      by_cases hws : cell.isWhitespace = true
      · rw [if_pos hws]
        obtain ⟨lead, rest, heq, hstart, hlead⟩ := ih (before ++ [cell])
          start fun c hc => by
            rcases List.mem_append.mp hc with hc | hc
            · exact hbefore c hc
            · exact List.mem_singleton.mp hc ▸ hws
        refine ⟨lead, rest, ?_, ?_, hlead⟩
        · rw [← heq, List.append_assoc]
          rfl
        · rw [← hstart, List.length_append]
          rfl
      · rw [if_neg hws]
        by_cases hclose : cell.isClose = true
        · rw [if_pos hclose]
          obtain ⟨lead, rest, heq, hstart, hlead, -, hrest⟩ := ih []
            (start + before.length + 1) nofun
          rw [List.nil_append] at heq
          have hsolid : solid (before ++ cell :: lead) = cell :: solid lead := by
            rw [solid_append, solid_eq_nil hbefore, List.nil_append]
            refine List.filter_cons_of_pos ?_
            rw [Bool.eq_false_iff.mpr hws]
            rfl
          refine ⟨before ++ cell :: lead, rest, ?_, ?_, ?_, ?_, hrest⟩
          · rw [heq, List.append_assoc]
            rfl
          · rw [List.length_nil, Nat.add_zero] at hstart
            rw [hstart, hsolid, List.length_append, List.length_cons]
            refine Prod.ext rfl ?_
            dsimp only
            omega
          · intro c hc
            rcases List.mem_append.mp hc with hc | hc
            · exact inTrail_of_isWhitespace (hbefore c hc)
            · rcases List.mem_cons.mp hc with rfl | hc
              · unfold inTrail
                rw [hclose, Bool.or_true]
              · exact hlead c hc
          · intro hnil
            rw [hsolid] at hnil
            cases hnil
        · rw [if_neg hclose]
          refine ⟨[], before ++ cell :: cells, rfl, rfl, nofun, fun _ => rfl,
            ?_⟩
          rw [List.dropWhile_append_of_pos hbefore,
            List.dropWhile_cons_of_neg hws]
          intro c hc
          cases hc
          exact Bool.eq_false_iff.mpr hclose

theorem stripLoop_eq (cells : List Cell) (start k : Nat) :
    stripLoop cells start k = (movedLoop cells start k).2 := by
  induction cells generalizing start k with
  | nil => rfl
  | cons cell cells ih =>
      unfold stripLoop movedLoop
      split
      · exact ih start (k + 1)
      · split
        · exact ih (k + 1) (k + 1)
        · rfl

/-- What is stripped in front of a line are closers and whitespace. -/
theorem stripLeadingClosers_spec {body after : List Cell}
    (hcells : l.cells = pre ++ body ++ after) :
    ∃ lead mid, body = lead ++ mid
      ∧ (stripLeadingClosers l pre.length (pre.length + body.length)).1
        = pre.length + lead.length
      ∧ (∀ cell ∈ lead, inTrail cell = true)
      ∧ ((stripLeadingClosers l pre.length (pre.length + body.length)).2
          = false → lead = []) := by
  have htake : l.cells.take (pre.length + body.length) = pre ++ body := by
    rw [hcells, ← List.length_append, List.take_left]
  obtain ⟨lead, rest, heq, hstart, hlead, -⟩ :=
    movedLoop_spec body [] pre.length nofun
  rw [List.nil_append] at heq
  have hloop : stripLoop ((pre ++ body).drop pre.length) pre.length pre.length
      = pre.length + lead.length := by
    rw [List.drop_left, stripLoop_eq]
    exact congrArg Prod.snd hstart
  unfold stripLeadingClosers
  dsimp only
  rw [htake, hloop]
  split
  · next hnone =>
      have hnil : lead = [] :=
        List.length_eq_zero_iff.mp (by omega)
      subst hnil
      exact ⟨[], body, rfl, rfl, nofun, fun _ => rfl⟩
  · refine ⟨lead ++ rest.takeWhile Cell.isWhitespace,
      rest.dropWhile Cell.isWhitespace, ?_, ?_, ?_, nofun⟩
    · rw [List.append_assoc, List.takeWhile_append_dropWhile, heq]
    · have hdrop : (pre ++ body).drop (pre.length + lead.length) = rest := by
        rw [← List.length_append]
        exact drop_of_append (by rw [heq, List.append_assoc])
      dsimp only
      rw [hdrop, List.length_append, Nat.add_assoc]
    · intro cell hcell
      rcases List.mem_append.mp hcell with hcell | hcell
      · exact hlead cell hcell
      · exact inTrail_of_isWhitespace (List.mem_takeWhile_imp hcell)

/-- What ends the code of a line, where the code does not end in
whitespace. -/
theorem trailStart_spec {mid after : List Cell}
    (hcells : l.cells = pre ++ mid ++ after)
    (hlast : ∀ cell ∈ mid.getLast?, cell.isWhitespace = false) :
    ∃ kept trail, mid = kept ++ trail
      ∧ trailStart l pre.length (pre.length + mid.length)
        = pre.length + kept.length
      ∧ (∀ cell ∈ trail, inTrail cell = true)
      ∧ ∀ cell ∈ kept.getLast?, inTrail cell = false := by
  have hbody : (l.cells.take (pre.length + mid.length)).drop pre.length
      = mid := by
    rw [hcells, ← List.length_append, List.take_left, List.drop_left]
  obtain ⟨trail, hmid, htrail, hkept⟩ := rdropWhile_spec inTrail mid
  refine ⟨mid.rdropWhile inTrail, trail, hmid, ?_, htrail, hkept⟩
  have hdrop : mid.drop (mid.rdropWhile inTrail).length = trail :=
    drop_of_append hmid
  unfold trailStart
  rw [hbody]
  dsimp only
  split
  · rfl
  · next hnone =>
      rw [hdrop] at hnone
      -- a trail of whitespace alone would be at the end of the code
      have hnil : trail = [] := by
        by_contra hne
        have hend : mid.getLast? = some (trail.getLast hne) := by
          rw [hmid, List.getLast?_append,
            List.getLast?_eq_some_getLast hne]
          rfl
        have hmem := List.getLast_mem hne
        have hclose := isClose_of_inTrail (htrail _ hmem)
          (hlast _ hend)
        exact hnone (List.any_eq_true.mpr ⟨_, hmem, hclose⟩)
      have hlen := congrArg List.length hmid
      rw [hnil, List.append_nil] at hlen
      rw [← hlen]

-- == the code

/-- Some live closers are dropped. -/
inductive Drops : List Cell → List Cell → Prop
  | nil : Drops [] []
  | keep {cells kept : List Cell} (cell : Cell) :
      Drops cells kept → Drops (cell :: cells) (cell :: kept)
  | drop {cells kept : List Cell} {cell : Cell} :
      cell.isClose = true → Drops cells kept → Drops (cell :: cells) kept

theorem Drops.marks (h : Drops cells kept) (hm : Marks s cells t) :
    Marks s kept t := by
  induction h generalizing s with
  | nil => exact hm
  | keep cell _ ih =>
      cases hm with
      | escaped c hm => exact .escaped c (ih hm)
      | backslash hm => exact .backslash (ih hm)
      | quote hm => exact .quote (ih hm)
      | plain h₁ h₂ h₃ hm => exact .plain h₁ h₂ h₃ (ih hm)
  | drop hclose _ ih =>
      exact ih (hm.of_live (Bool.and_eq_true_iff.mp hclose).1).2

theorem Drops.payload (h : Drops cells kept) :
    payload kept = payload cells := by
  induction h with
  | nil => rfl
  | keep cell _ ih =>
      by_cases hbracket : cell.isBracket = true
      · rw [payload_bracket hbracket, payload_bracket hbracket, ih]
      · rw [payload_other hbracket, payload_other hbracket, ih]
  | drop hclose _ ih =>
      rw [payload_bracket _ _, ih]
      unfold Cell.isBracket
      rw [hclose, Bool.or_true]

theorem Drops.mem (h : Drops cells kept) (hcell : cell ∈ kept) :
    cell ∈ cells := by
  induction h with
  | nil => exact hcell
  | keep _ _ ih =>
      rcases List.mem_cons.mp hcell with rfl | hcell
      · exact List.mem_cons_self
      · exact List.mem_cons_of_mem _ (ih hcell)
  | drop _ _ ih => exact List.mem_cons_of_mem _ (ih hcell)

/-- What does not end in a closer ends as before. -/
theorem Drops.getLast (h : Drops cells kept)
    (hlast : ∀ cell ∈ cells.getLast?, inTrail cell = false) :
    kept.getLast? = cells.getLast? := by
  induction h with
  | nil => rfl
  | @keep cells kept cell hdrops ih =>
      cases cells with
      | nil =>
          cases hdrops
          rfl
      | cons next cells =>
          rw [List.getLast?_cons_cons] at hlast ⊢
          have hkept := ih hlast
          cases kept with
          | nil =>
              rw [List.getLast?_nil] at hkept
              exact absurd hkept.symm
                (by rw [List.getLast?_cons]; exact nofun)
          | cons next' kept => rw [List.getLast?_cons_cons, hkept]
  | @drop cells kept cell hclose hdrops ih =>
      cases cells with
      | nil =>
          have hno := hlast cell rfl
          unfold inTrail at hno
          rw [hclose, Bool.or_true] at hno
          cases hno
      | cons next cells =>
          rw [List.getLast?_cons_cons] at hlast ⊢
          exact ih hlast

theorem isWhitespace_of_isBlank {c : Char} (h : isBlank c = true) :
    Text.isWhitespace c = true := by
  unfold isBlank at h
  rw [Bool.or_eq_true, beq_iff_eq, beq_iff_eq] at h
  rcases h with rfl | rfl <;> rfl

/-- Code that does not end in whitespace has none to take off. -/
theorem rdropWhile_isBlank
    (hlast : ∀ cell ∈ cells.getLast?, inTrail cell = false) :
    (chars cells).rdropWhile isBlank = chars cells := by
  rw [List.rdropWhile_eq_self_iff]
  intro hne hblank
  have hws := isWhitespace_of_isBlank hblank
  have hlast' := List.getLast?_eq_some_getLast hne
  generalize (chars cells).getLast hne = c at hws hlast'
  unfold chars at hlast'
  rw [List.getLast?_map, Option.map_eq_some_iff] at hlast'
  obtain ⟨cell, hcell, rfl⟩ := hlast'
  have hno := hlast cell hcell
  rw [inTrail_of_isWhitespace hws] at hno
  cases hno

theorem codeLoop_spec (cells : List Cell) (k : Nat) (stack : List OpenAt) :
    ∃ kept, (codeLoop cells k stack).code = chars kept
      ∧ Drops cells kept
      ∧ pair (brackets kept) (stack.map Prod.fst)
        = some ((codeLoop cells k stack).stack.map Prod.fst)
      ∧ ((codeLoop cells k stack).dropped = false → kept = cells) := by
  induction cells generalizing k stack with
  | nil => exact ⟨[], rfl, .nil, rfl, fun _ => rfl⟩
  | cons cell cells ih =>
      unfold codeLoop
      by_cases hopen : cell.isOpen = true
      · rw [if_pos hopen]
        obtain ⟨kept, hcode, hdrops, hpair, hall⟩ :=
          ih (k + 1) ((cell.char, k) :: stack)
        refine ⟨cell :: kept, congrArg (cell.char :: ·) hcode,
          .keep cell hdrops, ?_, fun h => congrArg (cell :: ·) (hall h)⟩
        exact (pair_open hopen kept _).trans hpair
      · rw [if_neg hopen]
        by_cases hclose : cell.isClose = true
        · rw [if_pos hclose]
          cases stack with
          | nil =>
              obtain ⟨kept, hcode, hdrops, hpair, -⟩ := ih (k + 1) []
              exact ⟨kept, hcode, .drop hclose hdrops, hpair, nofun⟩
          | cons form stack =>
              obtain ⟨opener, x⟩ := form
              dsimp only
              by_cases hkind : closerFor opener = cell.char
              · rw [if_pos hkind]
                obtain ⟨kept, hcode, hdrops, hpair, hall⟩ :=
                  ih (k + 1) stack
                refine ⟨cell :: kept, congrArg (cell.char :: ·) hcode,
                  .keep cell hdrops, ?_,
                  fun h => congrArg (cell :: ·) (hall h)⟩
                rw [pair_close hclose]
                exact (if_pos hkind).trans hpair
              · rw [if_neg hkind]
                obtain ⟨kept, hcode, hdrops, hpair, -⟩ :=
                  ih (k + 1) ((opener, x) :: stack)
                exact ⟨kept, hcode, .drop hclose hdrops, hpair, nofun⟩
        · rw [if_neg hclose]
          obtain ⟨kept, hcode, hdrops, hpair, hall⟩ := ih (k + 1) stack
          refine ⟨cell :: kept, congrArg (cell.char :: ·) hcode,
            .keep cell hdrops, ?_, fun h => congrArg (cell :: ·) (hall h)⟩
          rw [brackets_other hopen hclose]
          exact hpair

-- == a line out

/-- A line, what is out for it, and the cells that are kept of it. -/
structure Done where
  line : LineScan
  out : OutLine
  kept : List Cell

/-- What holds of a line that is out, whatever closers it gets. -/
structure Made (d : Done) (code : List Cell) (comment : Tendril)
    (t pos : Pos) : Prop where
  reads : Reads d.line code comment t
  raw : d.out.raw = chars d.line.cells
  code_eq : d.out.code = chars d.kept
  comment_eq : d.out.comment = comment
  indent : ∀ c ∈ d.out.indent, Text.isWhitespace c = true
  gap : ∀ c ∈ d.out.gap, Text.isWhitespace c = true
  marks : Marks ⟨d.line.startsInString, false⟩ d.kept pos
  ends : pos.inString = t.inString
  residue : Text.trim (payload d.kept) = Text.trim (payload code)
  unchanged : d.out.changed = false → brackets d.kept = brackets code
  closed : d.out.closers ≠ [] → d.line.endsInString = false
  closers : ∀ c ∈ d.out.closers, isClose c = true
  newline : '\n' ∉ chars d.line.cells →
    '\n' ∉ d.out.indent ++ chars d.kept ++ d.out.gap

/-- The pieces of a rendered line. -/
theorem render_cases (o : OutLine) :
    o.changed = false ∧ o.closers = [] ∧ o.render = o.raw
    ∨ o.changed = true ∧ o.code = [] ∧ o.closers = [] ∧ o.comment = []
      ∧ o.render = []
    ∨ (o.changed = true ∨ o.closers ≠ [])
      ∧ o.render = o.indent ++ o.code ++ o.closers ++ o.gap ++ o.comment := by
  unfold OutLine.render
  by_cases hraw : (!o.changed && o.closers.isEmpty) = true
  · rw [if_pos hraw]
    rw [Bool.and_eq_true, Bool.not_eq_true', List.isEmpty_iff] at hraw
    exact .inl ⟨hraw.1, hraw.2, rfl⟩
  · rw [if_neg hraw]
    rw [Bool.and_eq_true, Bool.not_eq_true', List.isEmpty_iff] at hraw
    have hchanged : o.changed = true ∨ o.closers ≠ [] := by
      by_cases h : o.changed = false
      · exact .inr fun hnil => hraw ⟨h, hnil⟩
      · exact .inl (Bool.of_not_eq_false h)
    by_cases hempty : (o.code.isEmpty && o.closers.isEmpty
        && o.comment.isEmpty) = true
    · rw [if_pos hempty]
      simp only [Bool.and_eq_true, List.isEmpty_iff] at hempty
      obtain ⟨⟨hcode, hclosers⟩, hcomment⟩ := hempty
      exact .inr (.inl ⟨hchanged.resolve_right fun h => h hclosers, hcode,
        hclosers, hcomment, rfl⟩)
    · rw [if_neg hempty]
      exact .inr (.inr ⟨hchanged, rfl⟩)

theorem chars_eq_nil : chars cells = [] ↔ cells = [] := List.map_eq_nil_iff

/-- A line that is put together from its pieces is scanned to them. -/
theorem reads_put {starts : Bool} {pos : Pos}
    {before closers after : Tendril}
    (hbefore : ∀ c ∈ before, Text.isWhitespace c = true)
    (hafter : ∀ c ∈ after, Text.isWhitespace c = true)
    (hmarks : Marks ⟨starts, false⟩ kept pos)
    (hclosers : ∀ c ∈ closers, isClose c = true)
    (hclosed : closers ≠ [] → pos = ⟨false, false⟩)
    (hcomment : comment = []
      ∨ pos.inString = false ∧ (pos.escaped = true → after ≠ [])
        ∧ ∃ rest, comment = ';' :: rest) :
    ∃ pre post t, Reads (scanLine starts
        (before ++ chars kept ++ closers ++ after ++ comment))
          (pre ++ kept ++ allLive closers ++ post) comment t
      ∧ t.inString = pos.inString ∧ chars pre = before
      ∧ chars post = after := by
  obtain ⟨pre, t₁, hm₁, hchars₁, hin₁, -, hesc₁⟩ :=
    marks_whitespace ⟨starts, false⟩ before hbefore
  obtain ⟨post, t₂, hm₂, hchars₂, hin₂, -, hesc₂⟩ :=
    marks_whitespace pos after hafter
  have ht₁ : t₁ = ⟨starts, false⟩ := by
    obtain ⟨inString, escaped⟩ := t₁
    obtain rfl : inString = starts := hin₁
    obtain rfl : escaped = false := hesc₁ (.inr rfl)
    rfl
  subst ht₁
  have hmid : Marks pos (allLive closers) pos := by
    by_cases hnil : closers = []
    · rw [hnil]
      exact .nil pos
    · rw [hclosed hnil]
      exact marks_closers closers hclosers
  have hcomment' : comment = []
      ∨ t₂ = ⟨false, false⟩ ∧ ∃ rest, comment = ';' :: rest := by
    refine hcomment.imp id fun ⟨hin, hesc, hrest⟩ => ⟨?_, hrest⟩
    obtain ⟨inString, escaped⟩ := t₂
    obtain rfl : inString = false := hin₂.trans hin
    obtain rfl : escaped = false := by
      refine hesc₂ ?_
      cases hpos : pos.escaped with
      | true => exact .inl (hesc hpos)
      | false => exact .inr rfl
    rfl
  have hreads := scanLine_of_marks
    (((hm₁.append hmarks).append hmid).append hm₂) hcomment'
  rw [chars_append, chars_append, chars_append, hchars₁, hchars₂,
    chars_allLive] at hreads
  exact ⟨pre, post, t₂, hreads, hin₂, hchars₁, hchars₂⟩

theorem isWhitespace_of_chars {text : Tendril} (hchars : chars cells = text)
    (htext : ∀ c ∈ text, Text.isWhitespace c = true) :
    ∀ cell ∈ cells, cell.isWhitespace = true :=
  fun _ hcell => htext _ (hchars ▸ List.mem_map_of_mem hcell)

/-- What the brackets and the rest are of a line put together. -/
theorem reads_pieces {starts : Bool} {pos : Pos}
    {before closers after : Tendril}
    (hbefore : ∀ c ∈ before, Text.isWhitespace c = true)
    (hafter : ∀ c ∈ after, Text.isWhitespace c = true)
    (hmarks : Marks ⟨starts, false⟩ kept pos)
    (hclosers : ∀ c ∈ closers, isClose c = true)
    (hclosed : closers ≠ [] → pos = ⟨false, false⟩)
    (hcomment : comment = []
      ∨ pos.inString = false ∧ (pos.escaped = true → after ≠ [])
        ∧ ∃ rest, comment = ';' :: rest) :
    ∃ code t, Reads (scanLine starts
        (before ++ chars kept ++ closers ++ after ++ comment)) code comment t
      ∧ t.inString = pos.inString
      ∧ Text.trim (payload code) = Text.trim (payload kept)
      ∧ brackets code = brackets kept ++ closers := by
  obtain ⟨pre, post, t, hreads, hin, hpre, hpost⟩ :=
    reads_put hbefore hafter hmarks hclosers hclosed hcomment
  have hws₁ := isWhitespace_of_chars hpre hbefore
  have hws₂ := isWhitespace_of_chars hpost hafter
  refine ⟨_, t, hreads, hin, ?_, ?_⟩
  · rw [payload_append, payload_append, payload_append,
      payload_allLive hclosers, List.append_nil]
    exact trim_pad
      (payload_inTrail fun cell hcell =>
        inTrail_of_isWhitespace (hws₁ cell hcell))
      (payload_inTrail fun cell hcell =>
        inTrail_of_isWhitespace (hws₂ cell hcell))
  · rw [brackets_append, brackets_append, brackets_append,
      brackets_allLive hclosers, brackets_eq_nil fun cell hcell =>
        isBracket_of_isWhitespace (hws₁ cell hcell),
      brackets_eq_nil fun cell hcell =>
        isBracket_of_isWhitespace (hws₂ cell hcell)]
    exact List.append_nil _

/-- A line that is out is scanned to what is kept of it and its closers,
and has besides brackets what the line had. -/
theorem Made.render {d : Done} {pos : Pos} (h : Made d code comment t pos)
    (hsealed : Sealed d.out) :
    (scanLine d.line.startsInString d.out.render).endsInString
        = d.line.endsInString
      ∧ Parinfer.residue (scanLine d.line.startsInString d.out.render)
        = Parinfer.residue d.line
      ∧ brackets (scanLine d.line.startsInString d.out.render).cells
        = brackets d.kept ++ d.out.closers := by
  have hresidue : Parinfer.residue d.line
      = (Text.trim (payload code), comment) := by
    unfold Parinfer.residue
    rw [h.reads.take_codeEnd, h.reads.drop_codeEnd]
  have hescaped : pos.escaped = true →
      d.out.closers = []
        ∧ (d.out.changed = false ∨ d.out.gap ≠ [] ∨ d.out.comment = []) := by
    intro hesc
    refine hsealed ?_
    rw [h.code_eq, ← hesc]
    exact h.marks.escapedAfter.symm
  -- how a line that is put together is read
  have hpieces : ∀ {before after : Tendril} {code' : List Cell} {t' : Pos},
      d.out.render = before ++ chars d.kept ++ d.out.closers ++ after
        ++ comment →
      Reads (scanLine d.line.startsInString (before ++ chars d.kept
        ++ d.out.closers ++ after ++ comment)) code' comment t' →
      t'.inString = pos.inString →
      Text.trim (payload code') = Text.trim (payload d.kept) →
      brackets code' = brackets d.kept ++ d.out.closers →
      (scanLine d.line.startsInString d.out.render).endsInString
          = d.line.endsInString
        ∧ Parinfer.residue (scanLine d.line.startsInString d.out.render)
          = Parinfer.residue d.line
        ∧ brackets (scanLine d.line.startsInString d.out.render).cells
          = brackets d.kept ++ d.out.closers := by
    intro before after code' t' hrender hreads hin htrim hbrackets
    rw [hrender]
    refine ⟨?_, ?_, ?_⟩
    · rw [hreads.ends, h.reads.ends, hin, h.ends]
    · rw [hresidue]
      unfold Parinfer.residue
      rw [hreads.take_codeEnd, hreads.drop_codeEnd, htrim, h.residue]
    · rw [hreads.cells, brackets_append, brackets_inert, List.append_nil,
        hbrackets]
  rcases render_cases d.out with ⟨hunchanged, hclosers, hrender⟩
    | ⟨-, hcode, hclosers, hcomment, hrender⟩ | ⟨hchanged, hrender⟩
  · have hrescan := h.reads.rescan
    rw [← h.raw, ← hrender] at hrescan
    rw [hrescan]
    refine ⟨rfl, rfl, ?_⟩
    rw [h.reads.cells, brackets_append, brackets_inert, hclosers,
      h.unchanged hunchanged]
  · have hkept : d.kept = [] := chars_eq_nil.mp (h.code_eq ▸ hcode)
    have hnil : comment = [] := h.comment_eq ▸ hcomment
    obtain ⟨code', t', hreads, hin, htrim, hbrackets⟩ := @reads_pieces
      d.kept comment d.line.startsInString pos [] d.out.closers [] nofun
      nofun h.marks h.closers (fun hne => absurd hclosers hne) (.inl hnil)
    refine hpieces ?_ hreads hin htrim hbrackets
    rw [hrender, hkept, hclosers, hnil]
    rfl
  · have hclosed : d.out.closers ≠ [] → pos = ⟨false, false⟩ := by
      intro hne
      have hin : pos.inString = false := by
        rw [h.ends, ← h.reads.ends]
        exact h.closed hne
      have hesc : pos.escaped = false := Bool.eq_false_iff.mpr fun hesc =>
        hne (hescaped hesc).1
      obtain ⟨inString, escaped⟩ := pos
      obtain rfl : inString = false := hin
      obtain rfl : escaped = false := hesc
      rfl
    have hcomment : comment = [] ∨ pos.inString = false
        ∧ (pos.escaped = true → d.out.gap ≠ [])
        ∧ ∃ rest, comment = ';' :: rest := by
      refine h.reads.comment_cases.imp id fun ⟨ht, hrest⟩ => ⟨?_, ?_, hrest⟩
      · rw [h.ends, ht]
      · intro hesc
        obtain ⟨hnil, hcases⟩ := hescaped hesc
        rcases hcases with hun | hgap | hno
        · exact absurd (hchanged.resolve_right fun hne => hne hnil)
            (by rw [hun]; exact Bool.false_ne_true)
        · exact hgap
        · obtain ⟨rest, hrest⟩ := hrest
          rw [h.comment_eq, hrest] at hno
          cases hno
    obtain ⟨code', t', hreads, hin, htrim, hbrackets⟩ := @reads_pieces
      d.kept comment d.line.startsInString pos d.out.indent d.out.closers
      d.out.gap h.indent h.gap h.marks h.closers hclosed hcomment
    refine hpieces ?_ hreads hin htrim hbrackets
    rw [hrender, h.code_eq, h.comment_eq]

/-- A line that does not begin inside a string, in its parts, and where
indent mode finds them. -/
structure Parts (l : LineScan) (code : List Cell) (comment : Tendril)
    (pre lead kept trail gap : List Cell) : Prop where
  code_eq : code = pre ++ lead ++ kept ++ trail ++ gap
  pre_ws : ∀ cell ∈ pre, cell.isWhitespace = true
  lead_inTrail : ∀ cell ∈ lead, inTrail cell = true
  last : ∀ cell ∈ kept.getLast?, inTrail cell = false
  trail_inTrail : ∀ cell ∈ trail, inTrail cell = true
  gap_ws : ∀ cell ∈ gap, cell.isWhitespace = true
  indentLen : (splitLine l).indentLen = pre.length
  bodyEnd : (splitLine l).bodyEnd = (pre ++ lead ++ kept ++ trail).length
  gapText : (splitLine l).gap = chars gap
  comment_eq : (splitLine l).comment = comment
  start_eq : (stripLeadingClosers l (splitLine l).indentLen
    (splitLine l).bodyEnd).1 = (pre ++ lead).length
  stripped : (stripLeadingClosers l (splitLine l).indentLen
    (splitLine l).bodyEnd).2 = false → lead = []
  trail_eq : trailStart l (pre ++ lead).length (splitLine l).bodyEnd
    = (pre ++ lead ++ kept).length

theorem exists_parts (h : Reads l code comment t) :
    ∃ pre lead kept trail gap, Parts l code comment pre lead kept trail
      gap := by
  obtain ⟨pre, body, gap, hcode, hpre, hgap, hlast, -, hindent, hend,
    hgapText, hcomment⟩ := split_spec h
  have hcells : l.cells = pre ++ body ++ (gap ++ inert comment) := by
    rw [h.cells, hcode]
    simp only [List.append_assoc]
  obtain ⟨lead, mid, hbody, hstart, hlead, hstripped⟩ :=
    stripLeadingClosers_spec hcells
  have hmid : ∀ cell ∈ mid.getLast?, cell.isWhitespace = false := by
    intro cell hcell
    refine hlast cell ?_
    rw [hbody, List.getLast?_append, hcell]
    rfl
  have hcells' : l.cells = (pre ++ lead) ++ mid ++ (gap ++ inert comment) := by
    rw [hcells, hbody]
    simp only [List.append_assoc]
  obtain ⟨kept, trail, hkept, htrail, htrailAll, hkeptLast⟩ :=
    trailStart_spec hcells' hmid
  have hlen : pre.length + body.length
      = (pre ++ lead ++ kept ++ trail).length := by
    rw [hbody, hkept]
    simp only [List.length_append]
    omega
  refine ⟨pre, lead, kept, trail, gap, ?_, hpre, hlead, hkeptLast, htrailAll,
    hgap, hindent, hend.trans hlen, hgapText, hcomment, ?_, ?_, ?_⟩
  · rw [hcode, hbody, hkept]
    simp only [List.append_assoc]
  · rw [hindent, hend, hstart, List.length_append]
  · rw [hindent, hend]
    exact hstripped
  · rw [hend, @List.length_append _ (pre ++ lead), ← htrail]
    congr 1
    rw [hbody]
    simp only [List.length_append]
    omega

/-- The parts around what is kept do not move the scan. -/
theorem Parts.marks (h : Parts l code comment pre lead kept trail gap)
    (hm : Marks ⟨false, false⟩ code t) :
    ∃ pos, Marks ⟨false, false⟩ kept pos ∧ pos.inString = t.inString := by
  rw [h.code_eq] at hm
  obtain ⟨t₄, hm, hgap⟩ := hm.split
  obtain ⟨t₃, hm, htrail⟩ := hm.split
  obtain ⟨t₂, hm, hkept⟩ := hm.split
  obtain ⟨t₁, hpre, hlead⟩ := hm.split
  have h₁ := hpre.inTrail rfl fun cell hcell =>
    inTrail_of_isWhitespace (h.pre_ws cell hcell)
  subst h₁
  have h₂ := hlead.inTrail rfl h.lead_inTrail
  subst h₂
  refine ⟨t₃, hkept, ?_⟩
  rw [← htrail.inString_of_quote fun cell hcell =>
      inTrail_ne_quote (h.trail_inTrail cell hcell),
    ← hgap.inString_of_quote fun cell hcell =>
      (isWhitespace_ne (h.gap_ws cell hcell)).2.1]

theorem Parts.payload (h : Parts l code comment pre lead kept trail gap) :
    Text.trim (payload kept) = Text.trim (payload code) := by
  have hpad := @trim_pad (Parinfer.payload (pre ++ lead))
    (Parinfer.payload kept) (Parinfer.payload (trail ++ gap))
    (payload_inTrail fun cell hcell => by
      rcases List.mem_append.mp hcell with hcell | hcell
      · exact inTrail_of_isWhitespace (h.pre_ws cell hcell)
      · exact h.lead_inTrail cell hcell)
    (payload_inTrail fun cell hcell => by
      rcases List.mem_append.mp hcell with hcell | hcell
      · exact h.trail_inTrail cell hcell
      · exact inTrail_of_isWhitespace (h.gap_ws cell hcell))
  rw [← hpad, h.code_eq]
  simp only [payload_append, List.append_assoc]

/-- With nothing stripped and no trail the brackets are those kept. -/
theorem Parts.brackets (h : Parts l code comment pre lead kept trail gap)
    (hlead : lead = []) (htrail : trail = []) :
    brackets kept = brackets code := by
  rw [h.code_eq, hlead, htrail]
  simp only [brackets_append]
  rw [brackets_eq_nil fun cell hcell =>
      isBracket_of_isWhitespace (h.pre_ws cell hcell),
    brackets_eq_nil fun cell hcell =>
      isBracket_of_isWhitespace (h.gap_ws cell hcell)]
  simp [Parinfer.brackets, chars]

-- == the lines out

/-- The brackets of a line that is out. -/
def Done.brackets (self : Done) : Tendril :=
  Parinfer.brackets self.kept ++ self.out.closers

/-- Where closers go: into a line that does not end inside a string, with
no brackets behind it. Without one there are no brackets at all. -/
def Last (ds : List Done) : Option Nat → Prop
  | none => ∀ d ∈ ds, d.brackets = []
  | some idx => ∃ pre d post, ds = pre ++ d :: post ∧ pre.length = idx
      ∧ d.line.endsInString = false ∧ ∀ d ∈ post, d.brackets = []

/-- What holds of the lines that are out, where the next one starts inside
a string or not. -/
structure Inv (inString : Bool) (lines : List LineScan)
    (state : IndentState) (ds : List Done) : Prop where
  lines : ds.map Done.line = lines
  out : ds.map Done.out = state.out
  made : ∀ d ∈ ds, ∃ code comment t pos, Made d code comment t pos
  pairs : pair (ds.flatMap Done.brackets) []
    = some (state.stack.map Prod.fst)
  last : inString = false → Last ds state.lastCode

variable {opts : Options} {inString : Bool} {lines : List LineScan}
  {state : IndentState} {ds : List Done}

theorem flatMap_brackets_nil (h : ∀ d ∈ ds, d.brackets = []) :
    ds.flatMap Done.brackets = [] :=
  List.flatMap_eq_nil_iff.mpr h

theorem modify_length {α : Type} (f : α → α) (xs : List α) (y : α)
    (ys : List α) : (xs ++ y :: ys).modify xs.length f = xs ++ f y :: ys := by
  induction xs with
  | nil => rfl
  | cons x xs ih => exact congrArg (x :: ·) ih

/-- Closers of nothing that is open are none. -/
theorem pair_closers_nil {closers : Tendril}
    (hclosers : ∀ c ∈ closers, isClose c = true) {left : List Char}
    (h : pair closers [] = some left) : closers = [] ∧ left = [] := by
  cases closers with
  | nil => exact ⟨rfl, (Option.some.inj h).symm⟩
  | cons c closers =>
      obtain ⟨-, -, -, hopen⟩ := isClose_ne (hclosers c List.mem_cons_self)
      cases (if_neg (Bool.eq_false_iff.mp hopen)).symm.trans h

/-- Outside of strings closers go where they close what is open. -/
theorem Inv.push (h : Inv false lines state ds) {closers : Tendril}
    (hclosers : ∀ c ∈ closers, isClose c = true) {stack : List OpenAt}
    (hpair : pair closers (state.stack.map Prod.fst)
      = some (stack.map Prod.fst)) :
    ∃ ds', Inv false lines
      ⟨pushClosers closers state.lastCode state.out, stack,
        state.lastCode⟩ ds' := by
  have hlast := h.last rfl
  cases hcode : state.lastCode with
  | none =>
      rw [hcode] at hlast
      have hopen := h.pairs
      rw [flatMap_brackets_nil hlast] at hopen
      rw [← Option.some.inj hopen] at hpair
      obtain ⟨-, hleft⟩ := pair_closers_nil hclosers hpair
      refine ⟨ds, h.lines, h.out, h.made, ?_, fun _ => hlast⟩
      rw [flatMap_brackets_nil hlast]
      exact congrArg some hleft.symm
  | some idx =>
      rw [hcode] at hlast
      obtain ⟨pre, d, post, rfl, rfl, hends, hpost⟩ := hlast
      let d' : Done :=
        { d with out := { d.out with closers := d.out.closers ++ closers } }
      refine ⟨pre ++ d' :: post, ?_, ?_, ?_, ?_, fun _ =>
        ⟨pre, d', post, rfl, rfl, hends, hpost⟩⟩
      · rw [← h.lines]
        simp [d']
      · unfold pushClosers
        dsimp only
        rw [← h.out, List.map_append, List.map_append, List.map_cons,
          List.map_cons, ← @List.length_map _ _ pre Done.out,
          modify_length]
      · intro e he
        rcases List.mem_append.mp he with he | he
        · exact h.made e (List.mem_append_left _ he)
        · rcases List.mem_cons.mp he with rfl | he
          · obtain ⟨code, comment, t, pos, hmade⟩ :=
              h.made d (List.mem_append_right _ List.mem_cons_self)
            refine ⟨code, comment, t, pos, { hmade with
              closed := fun _ => hends
              closers := fun c hc => ?_ }⟩
            rcases List.mem_append.mp hc with hc | hc
            · exact hmade.closers c hc
            · exact hclosers c hc
          · exact h.made e (List.mem_append_right _
              (List.mem_cons_of_mem _ he))
      · have hbefore := h.pairs
        rw [List.flatMap_append, List.flatMap_cons,
          flatMap_brackets_nil hpost, List.append_nil] at hbefore ⊢
        have hd : d'.brackets = d.brackets ++ closers :=
          (List.append_assoc _ _ _).symm
        rw [hd, ← List.append_assoc, pair_append, hbefore]
        exact hpair

/-- A line is added behind the others. -/
theorem Inv.add (h : Inv inString lines state ds) {d : Done}
    {state' : IndentState}
    (hmade : ∃ code comment t pos, Made d code comment t pos)
    (hout : state'.out = state.out ++ [d.out])
    (hpair : pair d.brackets (state.stack.map Prod.fst)
      = some (state'.stack.map Prod.fst))
    (hlast : d.line.endsInString = false →
      state'.lastCode = some state.out.length
      ∨ inString = false ∧ state'.lastCode = state.lastCode
        ∧ d.brackets = []) :
    Inv d.line.endsInString (lines ++ [d.line]) state' (ds ++ [d]) := by
  refine ⟨?_, ?_, ?_, ?_, ?_⟩
  · rw [List.map_append, h.lines]
    rfl
  · rw [List.map_append, h.out, hout]
    rfl
  · intro e he
    rcases List.mem_append.mp he with he | he
    · exact h.made e he
    · exact List.mem_singleton.mp he ▸ hmade
  · rw [List.flatMap_append, pair_append, h.pairs, List.flatMap_singleton]
    exact hpair
  · intro hends
    rcases hlast hends with hcode | ⟨hin, hcode, hnil⟩
    · rw [hcode, ← h.out, List.length_map]
      exact ⟨ds, d, [], rfl, rfl, hends, nofun⟩
    · rw [hcode]
      have hold := h.last hin
      cases hlc : state.lastCode with
      | none =>
          rw [hlc] at hold
          intro e he
          rcases List.mem_append.mp he with he | he
          · exact hold e he
          · exact List.mem_singleton.mp he ▸ hnil
      | some idx =>
          rw [hlc] at hold
          obtain ⟨pre, e, post, rfl, hidx, he, hpost⟩ := hold
          refine ⟨pre, e, post ++ [d], ?_, hidx, he, fun e he => ?_⟩
          · rw [List.append_assoc]
            rfl
          · rcases List.mem_append.mp he with he | he
            · exact hpost e he
            · exact List.mem_singleton.mp he ▸ hnil

/-- What is taken of a line that begins inside a string. -/
theorem Reads.string (h : Reads l code comment t)
    (hstarts : l.startsInString = true) :
    ∃ gap pos, code = code.rdropWhile Cell.isWhitespace ++ gap
      ∧ (∀ cell ∈ gap, cell.isWhitespace = true)
      ∧ (takeStringLine l).1 = { OutLine.new l with
        code := chars (code.rdropWhile Cell.isWhitespace)
        gap := chars gap
        comment := comment }
      ∧ Marks ⟨l.startsInString, false⟩ (code.rdropWhile Cell.isWhitespace)
        pos
      ∧ Marks pos gap t ∧ t.inString = pos.inString
      ∧ (l.endsInString = false →
        code.rdropWhile Cell.isWhitespace ≠ [] ∧ (takeStringLine l).2 = true)
      := by
  obtain ⟨gap, hgap, hws, -⟩ := rdropWhile_spec Cell.isWhitespace code
  have hmarks := h.marks
  rw [hgap] at hmarks
  obtain ⟨pos, hbody, hrest⟩ := hmarks.split
  have hin := hrest.inString_of_quote fun cell hcell =>
    (isWhitespace_ne (hws cell hcell)).2.1
  refine ⟨gap, pos, hgap, hws, ?_, hbody, hrest, hin, fun hends => ?_⟩
  · unfold takeStringLine
    dsimp only
    rw [h.take_codeEnd, h.drop_codeEnd, drop_of_append hgap]
  · have hne : code.rdropWhile Cell.isWhitespace ≠ [] := by
      intro hnil
      -- the string is closed by a quote, which is code
      have hquote := hbody.inString_of_quote fun cell hcell => by
        rw [hnil] at hcell
        cases hcell
      have htrue : pos.inString = true := hquote.trans hstarts
      rw [← hin, ← h.ends, hends] at htrue
      cases htrue
    refine ⟨hne, ?_⟩
    unfold takeStringLine
    dsimp only
    rw [h.take_codeEnd, hends]
    cases hb : code.rdropWhile Cell.isWhitespace with
    | nil => exact absurd hb hne
    | cons _ _ => rfl

/-- A line that begins inside a string is copied. -/
theorem Inv.string (h : Inv true lines state ds)
    (hreads : Reads l code comment t) (hstarts : l.startsInString = true)
    (hpair : (pair (Parinfer.brackets l.cells)
      (state.stack.map Prod.fst)).isSome) :
    ∃ ds', Inv l.endsInString (lines ++ [l]) (indentLine opts state l)
      ds' := by
  obtain ⟨gap, pos, hgap, hws, hd, hbody, hrest, hin, hlast⟩ :=
    hreads.string hstarts
  let body := code.rdropWhile Cell.isWhitespace
  let d : Done := ⟨l, (takeStringLine l).1, body⟩
  obtain ⟨left, hleft⟩ := Option.isSome_iff_exists.mp hpair
  have hgapBrackets : Parinfer.brackets gap = [] :=
    brackets_eq_nil fun cell hcell =>
      isBracket_of_isWhitespace (hws cell hcell)
  have hbrackets : Parinfer.brackets body = Parinfer.brackets code := by
    conv_rhs => rw [hgap]
    rw [brackets_append, hgapBrackets, List.append_nil]
  have hcells : Parinfer.brackets l.cells = Parinfer.brackets code := by
    rw [hreads.cells, brackets_append, brackets_inert, List.append_nil]
  have hmade : Made d code comment t pos := by
    refine ⟨hreads, ?_, ?_, ?_, ?_, ?_, hbody, hin.symm, ?_, ?_, ?_, ?_,
      ?_⟩
    · exact congrArg OutLine.raw hd
    · exact congrArg OutLine.code hd
    · exact congrArg OutLine.comment hd
    · intro c hc
      rw [show d.out.indent = [] from congrArg OutLine.indent hd] at hc
      cases hc
    · intro c hc
      rw [show d.out.gap = chars gap from congrArg OutLine.gap hd] at hc
      obtain ⟨cell, hcell, rfl⟩ := List.mem_map.mp hc
      exact hws cell hcell
    · have hpad := @trim_pad [] (payload body) (payload gap) nofun
        (payload_inTrail fun cell hcell =>
          inTrail_of_isWhitespace (hws cell hcell))
      conv_rhs => rw [hgap, payload_append]
      exact hpad.symm
    · exact fun _ => hbrackets
    · intro hne
      exact absurd (congrArg OutLine.closers hd) hne
    · intro c hc
      rw [show d.out.closers = [] from congrArg OutLine.closers hd] at hc
      cases hc
    · intro hnew hmem
      rw [show d.out.indent = [] from congrArg OutLine.indent hd,
        show d.out.gap = chars gap from congrArg OutLine.gap hd,
        List.nil_append, ← chars_append] at hmem
      refine hnew ?_
      rw [show d.line.cells = code ++ inert comment from hreads.cells,
        chars_append, hgap]
      exact List.mem_append_left _ hmem
  refine ⟨ds ++ [d], h.add ⟨code, comment, t, pos, hmade⟩ ?_ ?_ ?_⟩
  · unfold indentLine
    rw [if_pos hstarts]
  · have hnil : d.out.closers = [] := congrArg OutLine.closers hd
    have hstack : (indentLine opts state l).stack
        = stringBrackets l.cells 0 state.stack := by
      unfold indentLine
      rw [if_pos hstarts]
    unfold Done.brackets
    rw [hnil, List.append_nil, hbrackets, ← hcells, hstack, hleft,
      stringBrackets_spec 0 hleft]
  · intro hends
    refine .inl ?_
    unfold indentLine
    rw [if_pos hstarts]
    exact if_pos (hlast hends).2

/-- A line that is left with nothing but whitespace. -/
theorem Inv.blank (h : Inv false lines state ds)
    (hreads : Reads l code comment t) (hstarts : l.startsInString = false)
    (hend : (splitLine l).bodyEnd
      ≤ (stripLeadingClosers l (splitLine l).indentLen
        (splitLine l).bodyEnd).1)
    (hcomment : (splitLine l).comment = []) :
    ∃ ds', Inv l.endsInString (lines ++ [l]) (indentLine opts state l)
      ds' := by
  obtain ⟨pre, lead, kept, trail, gap, hparts⟩ := exists_parts hreads
  have hnil : comment = [] := hparts.comment_eq ▸ hcomment
  have hlen := hend
  rw [hparts.start_eq, hparts.bodyEnd] at hlen
  simp only [List.length_append] at hlen
  have hkept : kept = [] := List.length_eq_zero_iff.mp (by omega)
  have htrail : trail = [] := List.length_eq_zero_iff.mp (by omega)
  have hmarks := hreads.marks
  rw [hstarts] at hmarks
  obtain ⟨pos, hmk, hin⟩ := hparts.marks hmarks
  obtain rfl : pos = ⟨false, false⟩ := by
    rw [hkept] at hmk
    cases hmk
    rfl
  let d : Done := ⟨l, { OutLine.new l with
    changed := (stripLeadingClosers l (splitLine l).indentLen
      (splitLine l).bodyEnd).2 }, []⟩
  have hline : indentLine opts state l
      = { state with out := state.out ++ [d.out] } := by
    unfold indentLine
    rw [if_neg (by rw [hstarts]; exact Bool.false_ne_true)]
    exact if_pos ⟨hend, hcomment⟩
  have hmade : Made d code comment t ⟨false, false⟩ := by
    refine ⟨hreads, rfl, rfl, hnil.symm, nofun, nofun, ?_, hin, ?_, ?_,
      fun hne => absurd rfl hne, nofun, fun _ => nofun⟩
    · rw [show d.line.startsInString = false from hstarts]
      exact .nil _
    · rw [← hparts.payload, hkept]
    · intro hunchanged
      have hlead := hparts.stripped hunchanged
      rw [← hparts.brackets hlead htrail, hkept]
  rw [hline]
  exact ⟨ds ++ [d], h.add ⟨code, comment, t, _, hmade⟩ rfl rfl
    fun _ => .inr ⟨rfl, rfl, rfl⟩⟩

/-- A line with code or a comment: it closes forms of the lines before,
and its own trail is left to be inferred. -/
theorem Inv.inferred (hopts : opts.cursorLine = none)
    (h : Inv false lines state ds)
    (hreads : Reads l code comment t) (hstarts : l.startsInString = false)
    (hgo : ¬ ((splitLine l).bodyEnd
        ≤ (stripLeadingClosers l (splitLine l).indentLen
          (splitLine l).bodyEnd).1
      ∧ (splitLine l).comment = [])) :
    ∃ ds', Inv l.endsInString (lines ++ [l]) (indentLine opts state l)
      ds' := by
  obtain ⟨pre, lead, kept, trail, gap, hparts⟩ := exists_parts hreads
  have hmarks := hreads.marks
  rw [hstarts] at hmarks
  obtain ⟨pos, hmk, hin⟩ := hparts.marks hmarks
  let start := (pre ++ lead).length
  let forms := closeForms start state.stack
  let loop := codeLoop kept start forms.2
  obtain ⟨hforms, hclosers⟩ := closeForms_spec start state.stack
  obtain ⟨ds', hpushed⟩ := h.push hclosers hforms
  obtain ⟨left, hcode, hdrops, hpair, hall⟩ :=
    codeLoop_spec kept start forms.2
  have hblank := @rdropWhile_isBlank left
    (hdrops.getLast hparts.last ▸ hparts.last)
  let stripped := (stripLeadingClosers l (splitLine l).indentLen
    (splitLine l).bodyEnd).2
  let d : Done := ⟨l, { OutLine.new l with
    indent := if stripped then List.replicate start ' '
      else chars (l.cells.take (splitLine l).indentLen)
    code := chars left
    gap := (splitLine l).gap
    comment := (splitLine l).comment
    changed := stripped || loop.dropped
      || (pre ++ lead ++ kept).length < (splitLine l).bodyEnd }, left⟩
  have hcells : l.cells = pre ++ lead ++ kept
      ++ (trail ++ gap ++ inert comment) := by
    rw [hreads.cells, hparts.code_eq]
    simp only [List.append_assoc]
  have hmid : (l.cells.take (pre ++ lead ++ kept).length).drop start
      = kept := by
    rw [hcells, List.take_left]
    exact List.drop_left
  have hline : indentLine opts state l
      = { out := pushClosers forms.1 state.lastCode state.out ++ [d.out]
          stack := loop.stack
          lastCode := if (chars left).isEmpty then state.lastCode
            else some state.out.length } := by
    have hcaret : ∀ i bodyEnd k, caretStart opts i bodyEnd k = k := by
      intro i bodyEnd k
      unfold caretStart
      rw [hopts]
      exact if_neg nofun
    unfold indentLine
    rw [if_neg (by rw [hstarts]; exact Bool.false_ne_true)]
    dsimp only
    rw [if_neg hgo, hcaret, hparts.start_eq, hparts.trail_eq, hmid, hcode,
      hblank]
  have hmade : Made d code comment t pos := by
    refine ⟨hreads, rfl, rfl, hparts.comment_eq, ?_, ?_, ?_, hin, ?_, ?_,
      fun hne => absurd rfl hne, nofun, ?_⟩
    · intro c hc
      have hc : c ∈ (if stripped then List.replicate start ' '
        else chars (l.cells.take (splitLine l).indentLen)) := hc
      split at hc
      · rw [List.eq_of_mem_replicate hc]
        rfl
      · rw [hparts.indentLen, hcells, List.append_assoc, List.append_assoc,
          List.take_left] at hc
        obtain ⟨cell, hcell, rfl⟩ := List.mem_map.mp hc
        exact hparts.pre_ws cell hcell
    · intro c hc
      have hc : c ∈ (splitLine l).gap := hc
      rw [hparts.gapText] at hc
      obtain ⟨cell, hcell, rfl⟩ := List.mem_map.mp hc
      exact hparts.gap_ws cell hcell
    · rw [show d.line.startsInString = false from hstarts]
      exact hdrops.marks hmk
    · rw [← hparts.payload]
      exact congrArg Text.trim hdrops.payload
    · intro hunchanged
      have hunchanged : (stripped || loop.dropped
        || decide ((pre ++ lead ++ kept).length < (splitLine l).bodyEnd))
          = false := hunchanged
      rw [Bool.or_eq_false_iff, Bool.or_eq_false_iff,
        decide_eq_false_iff_not, hparts.bodyEnd] at hunchanged
      obtain ⟨⟨hstripped, hdropped⟩, hlen⟩ := hunchanged
      have htrail : trail = [] := by
        rw [@List.length_append _ _ trail] at hlen
        exact List.length_eq_zero_iff.mp (by omega)
      rw [show d.kept = kept from hall hdropped]
      exact hparts.brackets (hparts.stripped hstripped) htrail
    · intro hnew hmem
      have hcell : ∀ cell ∈ l.cells, cell.char ≠ '\n' :=
        fun cell hcell h => hnew (h ▸ List.mem_map_of_mem hcell)
      rcases List.mem_append.mp hmem with hmem | hmem
      · rcases List.mem_append.mp hmem with hmem | hmem
        · have hmem : '\n' ∈ (if stripped then List.replicate start ' '
            else chars (l.cells.take (splitLine l).indentLen)) := hmem
          split at hmem
          · cases List.eq_of_mem_replicate hmem
          · obtain ⟨cell, hin, hchar⟩ := List.mem_map.mp hmem
            exact hcell cell (List.mem_of_mem_take hin) hchar
        · obtain ⟨cell, hin, hchar⟩ := List.mem_map.mp hmem
          refine hcell cell ?_ hchar
          rw [hcells]
          exact List.mem_append_left _
            (List.mem_append_right _ (hdrops.mem hin))
      · have hmem : '\n' ∈ (splitLine l).gap := hmem
        rw [hparts.gapText] at hmem
        obtain ⟨cell, hin, hchar⟩ := List.mem_map.mp hmem
        refine hcell cell ?_ hchar
        rw [hcells]
        exact List.mem_append_right _ (List.mem_append_left _
          (List.mem_append_right _ hin))
  rw [hline]
  refine ⟨ds' ++ [d], hpushed.add ⟨code, comment, t, pos, hmade⟩ rfl ?_ ?_⟩
  · unfold Done.brackets
    exact (congrArg (pair · _) (List.append_nil _)).trans hpair
  · intro _
    by_cases hempty : (chars left).isEmpty = true
    · refine .inr ⟨rfl, if_pos hempty, ?_⟩
      have hnil : d.kept = [] := chars_eq_nil.mp (List.isEmpty_iff.mp hempty)
      unfold Done.brackets
      rw [hnil]
      rfl
    · refine .inl ((if_neg hempty).trans ?_)
      have hlen : (pushClosers forms.1 state.lastCode state.out).length
          = state.out.length := by
        unfold pushClosers
        split
        · exact List.length_modify _ _ _
        · rfl
      exact congrArg some hlen.symm

end Zmax.Parinfer
