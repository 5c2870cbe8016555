/-
What paren mode makes of a line.

The closers that a line begins with go up, and what is left of its code
stays as it is (`ParenParts`), at a column right of the innermost bracket
that is open there.
-/
import Zmax.Term.Proofs.IndentMode

namespace Zmax.Parinfer

variable {s t u : Pos} {cells code kept : List Cell} {comment : Tendril}
  {l : LineScan}

-- == solids

theorem isClose_not_whitespace {cell : Cell} (h : cell.isClose = true) :
    cell.isWhitespace = false := by
  refine Bool.eq_false_iff.mpr fun hws => ?_
  obtain ⟨-, -, -, -, hclose⟩ := isWhitespace_ne hws
  unfold Cell.isClose at h
  rw [hclose, Bool.and_false] at h
  cases h

theorem solid_allLive {text : Tendril} (h : ∀ c ∈ text, isClose c = true) :
    solid (allLive text) = allLive text := by
  refine List.filter_eq_self.mpr fun cell hcell => ?_
  obtain ⟨c, hc, rfl⟩ := List.mem_map.mp hcell
  rw [isClose_not_whitespace (by
    unfold Cell.isClose
    rw [h c hc]
    rfl)]
  rfl

/-- Closers among whitespace are these alone. -/
theorem solid_inTrail (h : ∀ cell ∈ cells, inTrail cell = true) :
    solid cells = allLive (chars (solid cells))
      ∧ ∀ c ∈ chars (solid cells), isClose c = true := by
  have hclose : ∀ cell ∈ solid cells, cell.isClose = true := by
    intro cell hcell
    obtain ⟨hmem, hws⟩ := List.mem_filter.mp hcell
    exact isClose_of_inTrail (h cell hmem) (by simpa using hws)
  refine ⟨?_, fun c hc => ?_⟩
  · unfold allLive chars
    rw [List.map_map]
    refine ((List.map_congr_left fun cell hcell => ?_).trans
      (List.map_id _)).symm
    have hlive := (Bool.and_eq_true_iff.mp (hclose cell hcell)).1
    obtain ⟨c, live⟩ := cell
    cases hlive
    rfl
  · obtain ⟨cell, hcell, rfl⟩ := List.mem_map.mp hc
    exact (Bool.and_eq_true_iff.mp (hclose cell hcell)).2

theorem brackets_solid (cells : List Cell) :
    brackets (solid cells) = brackets cells := by
  unfold brackets solid
  rw [List.filter_filter]
  congr 1
  refine List.filter_congr fun cell _ => ?_
  by_cases hws : cell.isWhitespace = true
  · rw [isBracket_of_isWhitespace hws]
    rfl
  · rw [Bool.eq_false_iff.mpr hws]
    exact Bool.and_true _

-- == moved closers

/-- The column where paren mode takes the rest of a line. -/
def parenStart (l : LineScan) : Nat :=
  let sp := splitLine l
  let body := l.cells.take sp.bodyEnd
  let loop := movedLoop (body.drop sp.indentLen) sp.indentLen sp.indentLen
  if !loop.1.isEmpty then
    loop.2 + ((body.drop loop.2).takeWhile Cell.isWhitespace).length
  else loop.2

/-- The closers that a line begins with. -/
def parenMoved (l : LineScan) : Tendril :=
  let sp := splitLine l
  (movedLoop ((l.cells.take sp.bodyEnd).drop sp.indentLen) sp.indentLen
    sp.indentLen).1

/-- A line that does not begin inside a string, in its parts, and where
paren mode finds them. -/
structure ParenParts (l : LineScan) (code : List Cell) (comment : Tendril)
    (pre lead kept gap : List Cell) : Prop where
  code_eq : code = pre ++ lead ++ kept ++ gap
  pre_ws : ∀ cell ∈ pre, cell.isWhitespace = true
  lead_inTrail : ∀ cell ∈ lead, inTrail cell = true
  last : ∀ cell ∈ kept.getLast?, cell.isWhitespace = false
  head : ∀ cell ∈ kept.head?, cell.isWhitespace = false
    ∧ cell.isClose = false
  gap_ws : ∀ cell ∈ gap, cell.isWhitespace = true
  indentLen : (splitLine l).indentLen = pre.length
  bodyEnd : (splitLine l).bodyEnd = (pre ++ lead ++ kept).length
  gapText : (splitLine l).gap = chars gap
  comment_eq : (splitLine l).comment = comment
  moved_eq : parenMoved l = chars (solid lead)
  moved_nil : parenMoved l = [] → lead = []
  start_eq : parenStart l = (pre ++ lead).length
  kept_eq : (l.cells.take (splitLine l).bodyEnd).drop (parenStart l) = kept

theorem exists_parenParts (h : Reads l code comment t) :
    ∃ pre lead kept gap, ParenParts l code comment pre lead kept gap := by
  obtain ⟨pre, body, gap, hcode, hpre, hgap, hlast, hhead, hindent, hend,
    hgapText, hcomment⟩ := split_spec h
  have htake : l.cells.take (splitLine l).bodyEnd = pre ++ body := by
    rw [hend, h.cells, hcode, ← List.length_append]
    simp only [List.append_assoc]
    rw [← List.append_assoc, List.take_left]
  obtain ⟨lead, rest, hbody, hloop, hlead, hnil, hrest⟩ :=
    movedLoop_spec body [] pre.length nofun
  rw [List.nil_append] at hbody
  have hmoved : movedLoop ((l.cells.take (splitLine l).bodyEnd).drop
      (splitLine l).indentLen) (splitLine l).indentLen (splitLine l).indentLen
      = (chars (solid lead), pre.length + lead.length) := by
    rw [htake, hindent, List.drop_left]
    exact hloop
  have hmovedEq : parenMoved l = chars (solid lead) := congrArg Prod.fst hmoved
  have hdrop : (pre ++ body).drop (pre.length + lead.length) = rest := by
    rw [← List.length_append]
    exact drop_of_append (by rw [hbody, List.append_assoc])
  by_cases hmove : chars (solid lead) = []
  · have hlead : lead = [] := hnil hmove
    subst hlead
    rw [List.nil_append] at hbody
    subst hbody
    have hstart : parenStart l = pre.length := by
      unfold parenStart
      dsimp only
      rw [hmoved]
      rfl
    refine ⟨pre, [], body, gap, ?_, hpre, nofun, hlast, ?_, hgap, hindent,
      ?_, hgapText, hcomment, hmovedEq, fun _ => rfl, ?_, ?_⟩
    · rw [List.append_nil]
      exact hcode
    · intro cell hcell
      have hws := hhead cell hcell
      refine ⟨hws, hrest cell ?_⟩
      cases body with
      | nil => cases hcell
      | cons c body =>
          cases hcell
          rw [List.dropWhile_cons_of_neg (Bool.eq_false_iff.mp hws)]
          rfl
    · rw [hend, List.append_nil, List.length_append]
    · rw [hstart, List.append_nil]
    · rw [htake, hstart, List.drop_left]
  · have hstart : parenStart l
        = (pre ++ (lead ++ rest.takeWhile Cell.isWhitespace)).length := by
      unfold parenStart
      dsimp only
      rw [hmoved]
      dsimp only
      rw [if_pos (by simpa using hmove), htake, hdrop]
      simp only [List.length_append, Nat.add_assoc]
    have hrestEq : rest = rest.takeWhile Cell.isWhitespace
        ++ rest.dropWhile Cell.isWhitespace :=
      List.takeWhile_append_dropWhile.symm
    have hsplit : body = lead ++ rest.takeWhile Cell.isWhitespace
        ++ rest.dropWhile Cell.isWhitespace := by
      rw [List.append_assoc, ← hrestEq, hbody]
    have hws : ∀ cell ∈ rest.takeWhile Cell.isWhitespace,
        cell.isWhitespace = true :=
      fun cell hcell => List.mem_takeWhile_imp hcell
    refine ⟨pre, lead ++ rest.takeWhile Cell.isWhitespace,
      rest.dropWhile Cell.isWhitespace, gap, ?_, hpre, ?_, ?_, ?_, hgap,
      hindent, ?_, hgapText, hcomment, ?_, ?_, hstart, ?_⟩
    · rw [hcode]
      conv_lhs => rw [hsplit]
      simp only [List.append_assoc]
    · intro cell hcell
      rcases List.mem_append.mp hcell with hcell | hcell
      · exact hlead cell hcell
      · exact inTrail_of_isWhitespace (hws cell hcell)
    · intro cell hcell
      refine hlast cell ?_
      rw [hsplit, List.getLast?_append, Option.mem_def.mp hcell]
      rfl
    · intro cell hcell
      refine ⟨?_, hrest cell hcell⟩
      have hnot := List.head?_dropWhile_not Cell.isWhitespace rest
      rw [Option.mem_def.mp hcell] at hnot
      simpa using hnot
    · rw [hend, ← List.length_append]
      conv_lhs => rw [hsplit]
      simp only [List.append_assoc]
    · rw [hmovedEq, solid_append, solid_eq_nil hws, List.append_nil]
    · intro h
      exact absurd (hmovedEq.symm.trans h) hmove
    · rw [htake, hstart]
      exact drop_of_append (by
        conv_lhs => rw [hsplit]
        simp only [List.append_assoc])

-- == columns

theorem stringBrackets_append (xs ys : List Cell) (j : Nat)
    (stack : List OpenAt) :
    stringBrackets (xs ++ ys) j stack
      = stringBrackets ys (j + xs.length) (stringBrackets xs j stack) := by
  induction xs generalizing j stack with
  | nil => rfl
  | cons cell xs ih =>
      have hlen : j + (cell :: xs).length = j + 1 + xs.length := by
        rw [List.length_cons]
        omega
      rw [List.cons_append, stringBrackets, stringBrackets, hlen]
      split
      · exact ih _ _
      · split <;> exact ih _ _

theorem stringBrackets_other (h : ∀ cell ∈ cells, cell.isBracket = false)
    (j : Nat) (stack : List OpenAt) : stringBrackets cells j stack = stack := by
  induction cells generalizing j with
  | nil => rfl
  | cons cell cells ih =>
      obtain ⟨hcell, hcells⟩ := List.forall_mem_cons.mp h
      obtain ⟨hopen, hclose⟩ := Bool.or_eq_false_iff.mp hcell
      rw [stringBrackets, if_neg (Bool.eq_false_iff.mp hopen),
        if_neg (Bool.eq_false_iff.mp hclose), ih hcells]

theorem stringBrackets_closers {text : Tendril}
    (h : ∀ c ∈ text, isClose c = true) (j : Nat) (stack : List OpenAt) :
    stringBrackets (allLive text) j stack = stack.drop text.length := by
  induction text generalizing j stack with
  | nil => rfl
  | cons c text ih =>
      obtain ⟨hc, htext⟩ := List.forall_mem_cons.mp h
      obtain ⟨-, -, -, hopen⟩ := isClose_ne hc
      have hcells : allLive (c :: text) = ⟨c, true⟩ :: allLive text := rfl
      have hnot : ¬ (Cell.mk c true).isOpen = true :=
        Bool.eq_false_iff.mp hopen
      have hclose : (Cell.mk c true).isClose = true := hc
      rw [hcells, stringBrackets, if_neg hnot, if_pos hclose, ih htext,
        List.drop_tail]
      rfl

/-- The shifted columns are those of the line that is out. -/
theorem parenBrackets_spec (delta : Int) (cells : List Cell) {j k : Nat}
    (hjk : (j : Int) = k + delta) {stack : List OpenAt} {opens : List Open}
    (h : stack.map (fun form => (form.2 : Int)) = opens.map Open.xNew) :
    (stringBrackets cells j stack).map (fun form => (form.2 : Int))
      = (parenBrackets delta cells k opens).map Open.xNew := by
  induction cells generalizing j k stack opens with
  | nil => exact h
  | cons cell cells ih =>
      have hnext : ((j + 1 : Nat) : Int) = (k + 1 : Nat) + delta := by omega
      rw [stringBrackets, parenBrackets]
      split
      · refine ih hnext ?_
        rw [List.map_cons, List.map_cons, h, hjk]
      · split
        · refine ih hnext ?_
          rw [List.map_tail, List.map_tail, h]
        · exact ih hnext h

/-- The columns of open brackets, from the innermost outwards. -/
def Sorted (stack : List OpenAt) : Prop :=
  stack.Pairwise fun inner outer => outer.2 < inner.2

theorem Sorted.brackets {stack : List OpenAt} (h : Sorted stack) {j : Nat}
    (hj : ∀ form ∈ stack, form.2 < j) (cells : List Cell) :
    Sorted (stringBrackets cells j stack) := by
  induction cells generalizing j stack with
  | nil => exact h
  | cons cell cells ih =>
      have hnext : ∀ form ∈ stack, form.2 < j + 1 :=
        fun form hform => Nat.lt_succ_of_lt (hj form hform)
      rw [stringBrackets]
      split
      · refine ih (List.pairwise_cons.mpr ⟨hj, h⟩) ?_
        exact List.forall_mem_cons.mpr ⟨Nat.lt_succ_self _, hnext⟩
      · split
        · exact ih h.tail fun form hform => hnext form (List.mem_of_mem_tail hform)
        · exact ih h hnext

-- == a line out

/-- What holds of a line that is out, whatever closers it gets. -/
structure Put (d : Done) (code : List Cell) (comment : Tendril)
    (t pos : Pos) : Prop where
  reads : Reads d.line code comment t
  raw : d.out.raw = chars d.line.cells
  code_eq : d.out.code = chars d.kept
  comment_eq : d.out.comment = comment
  indent : ∀ c ∈ d.out.indent, Text.isWhitespace c = true
  gap : ∀ c ∈ d.out.gap, Text.isWhitespace c = true
  marks : Marks ⟨d.line.startsInString, false⟩ d.kept pos
  ends : pos.inString = t.inString
  unchanged : d.out.changed = false → ∃ pre post,
    code = pre ++ d.kept ++ post
      ∧ (∀ cell ∈ pre, cell.isWhitespace = true)
      ∧ (∀ cell ∈ post, cell.isWhitespace = true)
      ∧ (d.kept ≠ [] ∨ comment ≠ [] → pre.length = d.out.indent.length)
  escaped : pos.escaped = true → comment ≠ [] → d.out.gap ≠ []
  closed : d.out.closers ≠ [] → d.line.endsInString = false
  coded : d.out.closers ≠ [] → d.kept ≠ []
  closers : ∀ c ∈ d.out.closers, isClose c = true
  newline : '\n' ∉ chars d.line.cells →
    '\n' ∉ d.out.indent ++ chars d.kept ++ d.out.gap

/-- A line that is out is scanned to what is kept of it and its closers, at
its indentation. -/
theorem Put.render {d : Done} {pos : Pos} (h : Put d code comment t pos)
    (hsealed : pos.escaped = true → d.out.closers = []) :
    ∃ pre post t', Reads (scanLine d.line.startsInString d.out.render)
        (pre ++ d.kept ++ allLive d.out.closers ++ post) comment t'
      ∧ t'.inString = t.inString
      ∧ (∀ cell ∈ pre, cell.isWhitespace = true)
      ∧ (∀ cell ∈ post, cell.isWhitespace = true)
      ∧ (d.kept ≠ [] ∨ comment ≠ [] →
        pre.length = d.out.indent.length) := by
  rcases render_cases d.out with ⟨hunchanged, hclosers, hrender⟩
    | ⟨-, hcode, hclosers, hcomment, hrender⟩ | ⟨-, hrender⟩
  · obtain ⟨pre, post, hsplit, hpre, hpost, hlen⟩ := h.unchanged hunchanged
    have hrescan := h.reads.rescan
    rw [← h.raw, ← hrender] at hrescan
    refine ⟨pre, post, t, ?_, rfl, hpre, hpost, hlen⟩
    have hall : pre ++ d.kept ++ allLive d.out.closers ++ post = code := by
      rw [hclosers, hsplit]
      exact congrArg (· ++ post) (List.append_nil _)
    rw [hrescan, hall]
    exact h.reads
  · have hkept : d.kept = [] := chars_eq_nil.mp (h.code_eq ▸ hcode)
    have hnil : comment = [] := h.comment_eq ▸ hcomment
    obtain ⟨pre, post, t', hreads, hin, hpre, hpost⟩ := @reads_put
      d.kept comment d.line.startsInString pos [] d.out.closers [] nofun
      nofun h.marks h.closers (fun hne => absurd hclosers hne) (.inl hnil)
    have hline : d.out.render = [] ++ chars d.kept ++ d.out.closers ++ []
        ++ comment := by
      rw [hrender, hkept, hclosers, hnil]
      rfl
    rw [← hline] at hreads
    refine ⟨pre, post, t', hreads, hin.trans h.ends, ?_, ?_, fun hne => ?_⟩
    · exact isWhitespace_of_chars hpre nofun
    · exact isWhitespace_of_chars hpost nofun
    · exact absurd (hne.resolve_left fun hk => hk hkept) fun hc => hc hnil
  · have hclosed : d.out.closers ≠ [] → pos = ⟨false, false⟩ := by
      intro hne
      have hin : pos.inString = false := by
        rw [h.ends, ← h.reads.ends]
        exact h.closed hne
      have hesc : pos.escaped = false := Bool.eq_false_iff.mpr fun hesc =>
        hne (hsealed hesc)
      obtain ⟨inString, escaped⟩ := pos
      obtain rfl : inString = false := hin
      obtain rfl : escaped = false := hesc
      rfl
    have hcomment : comment = [] ∨ pos.inString = false
        ∧ (pos.escaped = true → d.out.gap ≠ [])
        ∧ ∃ rest, comment = ';' :: rest := by
      refine h.reads.comment_cases.imp id fun ⟨ht, rest, hrest⟩ =>
        ⟨?_, fun hesc => ?_, rest, hrest⟩
      · rw [h.ends, ht]
      · exact h.escaped hesc (hrest ▸ List.cons_ne_nil _ _)
    obtain ⟨pre, post, t', hreads, hin, hpre, hpost⟩ := @reads_put
      d.kept comment d.line.startsInString pos d.out.indent d.out.closers
      d.out.gap h.indent h.gap h.marks h.closers hclosed hcomment
    rw [← h.code_eq, ← h.comment_eq, ← hrender, h.comment_eq] at hreads
    refine ⟨pre, post, t', hreads, hin.trans h.ends, ?_, ?_, fun _ => ?_⟩
    · exact isWhitespace_of_chars hpre h.indent
    · exact isWhitespace_of_chars hpost h.gap
    · rw [← hpre, length_chars]

end Zmax.Parinfer
