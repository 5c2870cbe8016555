/-
What paren mode keeps of lines.

As closers move up past lines without code, what is out has the same solid
cells in the same order (`ParenInv.solids`). The columns of the brackets
that are open there are those on the stack (`ParenInv.columns`), and each
line with code is right of the innermost of them (`Placed`). A line with
only a comment is right of all that are open, if columns grow inwards, and
so it still is when closers move up past it.
-/
import Zmax.Term.Proofs.ParenMode

namespace Zmax.Parinfer

/-- The solid cells of a line that is out. -/
def Done.solids (self : Done) : List Cell :=
  solid self.kept ++ allLive self.out.closers

/-- What is open behind a line that is out. -/
def Done.forms (self : Done) (stack : List OpenAt) : List OpenAt :=
  (stringBrackets self.kept self.out.indent.length stack).drop
    self.out.closers.length

/-- A line without code. -/
def Done.Bare (self : Done) : Prop := self.kept = [] ∧ self.out.closers = []

/-- Where closers go: into the last line with code, which does not end
inside a string. -/
def LastCode (ds : List Done) : Option Nat → Prop
  | none => ∀ d ∈ ds, d.Bare
  | some idx => ∃ pre d post, ds = pre ++ d :: post ∧ pre.length = idx
      ∧ d.line.endsInString = false ∧ d.kept ≠ [] ∧ ∀ d ∈ post, d.Bare

def formsAfter (stack : List OpenAt) (ds : List Done) : List OpenAt :=
  ds.foldl (fun stack d => d.forms stack) stack

/-- Lines that do not begin inside a string are right of what is open. -/
def Placed (nested : Prop) : List Done → List OpenAt → Prop
  | [], _ => True
  | d :: ds, stack =>
      (d.line.startsInString = false →
        (d.kept ≠ [] → ∀ form ∈ stack.head?, form.2 < d.out.indent.length)
        ∧ (nested → d.kept = [] → d.out.comment ≠ [] →
          ∀ form ∈ stack, form.2 < d.out.indent.length))
      ∧ Placed nested ds (d.forms stack)

variable {nested : Prop} {ds : List Done} {stack : List OpenAt}

-- == push

variable {d : Done} {lead gap kept pre : List Cell}

theorem Done.Bare.forms (h : d.Bare) : d.forms stack = stack := by
  unfold Done.forms
  rw [h.1, h.2]
  rfl

theorem Done.Bare.solids (h : d.Bare) : d.solids = [] := by
  unfold Done.solids
  rw [h.1, h.2]
  rfl

theorem formsAfter_bare (h : ∀ d ∈ ds, d.Bare) :
    formsAfter stack ds = stack := by
  induction ds generalizing stack with
  | nil => rfl
  | cons d ds ih =>
      obtain ⟨hd, hds⟩ := List.forall_mem_cons.mp h
      have hstep : formsAfter stack (d :: ds) = formsAfter (d.forms stack) ds :=
        rfl
      rw [hstep, hd.forms, ih hds]

theorem solids_bare (h : ∀ d ∈ ds, d.Bare) : ds.flatMap Done.solids = [] :=
  List.flatMap_eq_nil_iff.mpr fun d hd => (h d hd).solids

theorem formsAfter_append (xs ys : List Done) :
    formsAfter stack (xs ++ ys) = formsAfter (formsAfter stack xs) ys :=
  List.foldl_append

theorem Placed.append {xs ys : List Done} :
    Placed nested (xs ++ ys) stack ↔ Placed nested xs stack
      ∧ Placed nested ys (formsAfter stack xs) := by
  induction xs generalizing stack with
  | nil => exact ⟨fun h => ⟨trivial, h⟩, And.right⟩
  | cons d xs ih =>
      constructor
      · rintro ⟨hd, h⟩
        obtain ⟨hxs, hys⟩ := ih.mp h
        exact ⟨⟨hd, hxs⟩, hys⟩
      · rintro ⟨⟨hd, hxs⟩, hys⟩
        exact ⟨hd, ih.mpr ⟨hxs, hys⟩⟩

/-- Lines without code stay right of what is open when less is. -/
theorem Placed.drop (h : Placed nested ds stack) (hbare : ∀ d ∈ ds, d.Bare)
    (k : Nat) : Placed nested ds (stack.drop k) := by
  induction ds with
  | nil => trivial
  | cons d ds ih =>
      obtain ⟨hd, hds⟩ := List.forall_mem_cons.mp hbare
      obtain ⟨hplaced, hrest⟩ := h
      rw [hd.forms] at hrest
      refine ⟨fun hstarts => ⟨fun hkept => absurd hd.1 hkept, ?_⟩, ?_⟩
      · intro hnested hkept hcomment form hform
        exact (hplaced hstarts).2 hnested hkept hcomment form
          (List.mem_of_mem_drop hform)
      · rw [hd.forms]
        exact ih hrest hds

/-- A line that gets closers. -/
def Done.push (closers : Tendril) (self : Done) : Done :=
  { self with out := { self.out with closers := self.out.closers ++ closers } }

theorem Done.push_forms (closers : Tendril) (d : Done) :
    (d.push closers).forms stack = (d.forms stack).drop closers.length := by
  show (stringBrackets d.kept d.out.indent.length stack).drop
    (d.out.closers ++ closers).length = _
  rw [List.length_append, ← List.drop_drop]
  rfl

theorem Done.push_solids (closers : Tendril) (d : Done) :
    (d.push closers).solids = d.solids ++ allLive closers := by
  show solid d.kept ++ allLive (d.out.closers ++ closers) = _
  unfold Done.solids allLive
  rw [List.map_append, List.append_assoc]

theorem Put.push {d : Done} {code : List Cell} {comment : Tendril}
    {t pos : Pos} (h : Put d code comment t pos) {closers : Tendril}
    (hclosers : ∀ c ∈ closers, isClose c = true)
    (hends : d.line.endsInString = false) (hkept : d.kept ≠ []) :
    Put (d.push closers) code comment t pos :=
  { h with
    closed := fun _ => hends
    coded := fun _ => hkept
    closers := fun c hc => (List.mem_append.mp hc).elim (h.closers c)
      (hclosers c) }

/-- What holds of the lines that are out, where the next one starts inside
a string or not, and the closers that it began with are out already. -/
structure ParenInv (nested : Prop) (inString : Bool)
    (lines : List LineScan) (moved : Tendril) (state : ParenState)
    (ds : List Done) : Prop where
  lines : ds.map Done.line = lines
  out : ds.map Done.out = state.out
  put : ∀ d ∈ ds, ∃ code comment t pos, Put d code comment t pos
  solids : ds.flatMap Done.solids
    = ds.flatMap (fun d => Parinfer.solids d.line) ++ allLive moved
  columns : (formsAfter [] ds).map (fun form => (form.2 : Int))
    = state.stack.map Open.xNew
  placed : Placed nested ds []
  sorted : nested → Sorted (formsAfter [] ds)
  last : inString = false → LastCode ds state.lastCode

theorem ParenInv.start : ParenInv nested false [] [] ⟨[], [], [], none⟩ [] :=
  ⟨rfl, rfl, nofun, rfl, rfl, trivial, fun _ => .nil, fun _ => nofun⟩

/-- Closers go into the last line with code, as if to the end. -/
theorem push_spec {closers : Tendril} {lastCode : Option Nat}
    (hlast : LastCode ds lastCode)
    (hput : ∀ d ∈ ds, ∃ code comment t pos, Put d code comment t pos)
    (hclosers : ∀ c ∈ closers, isClose c = true)
    (hnone : lastCode = none → closers = []) :
    ∃ ds', ds'.map Done.line = ds.map Done.line
      ∧ ds'.map Done.out = pushClosers closers lastCode (ds.map Done.out)
      ∧ (∀ d ∈ ds', ∃ code comment t pos, Put d code comment t pos)
      ∧ ds'.flatMap Done.solids
        = ds.flatMap Done.solids ++ allLive closers
      ∧ formsAfter [] ds' = (formsAfter [] ds).drop closers.length
      ∧ (Placed nested ds [] → Placed nested ds' [])
      ∧ LastCode ds' lastCode := by
  cases lastCode with
  | none =>
      rw [hnone rfl]
      exact ⟨ds, rfl, rfl, hput, (List.append_nil _).symm, rfl, id, hlast⟩
  | some idx =>
      obtain ⟨pre, d, post, rfl, rfl, hends, hkept, hpost⟩ := hlast
      refine ⟨pre ++ d.push closers :: post, ?_, ?_, ?_, ?_, ?_, ?_,
        pre, d.push closers, post, rfl, rfl, hends, hkept, hpost⟩
      · simp [Done.push]
      · unfold pushClosers
        dsimp only
        rw [List.map_append, List.map_append, List.map_cons, List.map_cons,
          ← @List.length_map _ _ pre Done.out, modify_length]
        rfl
      · intro e he
        rcases List.mem_append.mp he with he | he
        · exact hput e (List.mem_append_left _ he)
        · rcases List.mem_cons.mp he with rfl | he
          · obtain ⟨code, comment, t, pos, hd⟩ :=
              hput d (List.mem_append_right _ List.mem_cons_self)
            exact ⟨code, comment, t, pos, hd.push hclosers hends hkept⟩
          · exact hput e (List.mem_append_right _
              (List.mem_cons_of_mem _ he))
      · rw [List.flatMap_append, List.flatMap_append, List.flatMap_cons,
          List.flatMap_cons, solids_bare hpost, List.append_nil,
          List.append_nil, Done.push_solids, List.append_assoc]
      · have hstep (d : Done) : formsAfter [] (pre ++ d :: post)
            = d.forms (formsAfter [] pre) := by
          rw [formsAfter_append]
          exact formsAfter_bare hpost
        rw [hstep, hstep, Done.push_forms]
      · intro hplaced
        obtain ⟨hpre, hd, hrest⟩ := Placed.append.mp hplaced
        refine Placed.append.mpr ⟨hpre, hd, ?_⟩
        rw [Done.push_forms]
        exact hrest.drop hpost _

variable {inString : Bool} {lines : List LineScan} {moved : Tendril}
  {state : ParenState}

theorem ParenInv.push (h : ParenInv nested false lines [] state ds)
    {closers : Tendril} (hclosers : ∀ c ∈ closers, isClose c = true)
    (hnone : state.lastCode = none → closers = []) :
    ∃ ds', ParenInv nested false lines closers
      ⟨pushClosers closers state.lastCode state.out, state.deltas,
        state.stack.drop closers.length, state.lastCode⟩ ds' := by
  obtain ⟨ds', hline, hout, hput, hsolids, hforms, hplaced, hlast⟩ :=
    push_spec (h.last rfl) h.put hclosers hnone
  refine ⟨ds', hline.trans h.lines, ?_, hput, ?_, ?_, hplaced h.placed, ?_,
    fun _ => hlast⟩
  · rw [hout, h.out]
  · have hsame : ds'.flatMap (fun d => Parinfer.solids d.line)
        = ds.flatMap fun d => Parinfer.solids d.line := by
      rw [← List.flatMap_map Done.line Parinfer.solids ds', hline,
        List.flatMap_map]
    rw [hsolids, h.solids, hsame]
    exact congrArg (· ++ allLive closers) (List.append_nil _)
  · rw [hforms, List.map_drop, h.columns, List.map_drop]
  · intro hnested
    rw [hforms]
    exact List.Pairwise.drop (h.sorted hnested)

/-- A line is added behind the others. -/
theorem ParenInv.add (h : ParenInv nested inString lines moved state ds)
    {state' : ParenState}
    (hput : ∃ code comment t pos, Put d code comment t pos)
    (hout : state'.out = state.out ++ [d.out])
    (hsolids : Parinfer.solids d.line = allLive moved ++ d.solids)
    (hcolumns : (d.forms (formsAfter [] ds)).map (fun form => (form.2 : Int))
      = state'.stack.map Open.xNew)
    (hplaced : Placed nested [d] (formsAfter [] ds))
    (hsorted : nested → Sorted (d.forms (formsAfter [] ds)))
    (hlast : d.line.endsInString = false →
      state'.lastCode = some state.out.length ∧ d.kept ≠ []
      ∨ inString = false ∧ state'.lastCode = state.lastCode ∧ d.Bare) :
    ParenInv nested d.line.endsInString (lines ++ [d.line]) [] state'
      (ds ++ [d]) := by
  have hforms : formsAfter [] (ds ++ [d]) = d.forms (formsAfter [] ds) :=
    formsAfter_append _ _
  refine ⟨?_, ?_, ?_, ?_, ?_, ?_, ?_, ?_⟩
  · rw [List.map_append, h.lines]
    rfl
  · rw [List.map_append, h.out, hout]
    rfl
  · intro e he
    rcases List.mem_append.mp he with he | he
    · exact h.put e he
    · exact List.mem_singleton.mp he ▸ hput
  · rw [List.flatMap_append, List.flatMap_append, h.solids,
      List.flatMap_singleton, List.flatMap_singleton, hsolids,
      ← List.append_assoc]
    exact (List.append_nil _).symm
  · rw [hforms]
    exact hcolumns
  · exact Placed.append.mpr ⟨h.placed, hplaced⟩
  · rw [hforms]
    exact hsorted
  · intro hends
    rcases hlast hends with ⟨hcode, hkept⟩ | ⟨hin, hcode, hbare⟩
    · rw [hcode, ← h.out, List.length_map]
      exact ⟨ds, d, [], rfl, rfl, hends, hkept, nofun⟩
    · rw [hcode]
      have hold := h.last hin
      cases hlc : state.lastCode with
      | none =>
          rw [hlc] at hold
          intro e he
          rcases List.mem_append.mp he with he | he
          · exact hold e he
          · exact List.mem_singleton.mp he ▸ hbare
      | some idx =>
          rw [hlc] at hold
          obtain ⟨pre, e, post, rfl, hidx, he, hkept, hpost⟩ := hold
          refine ⟨pre, e, post ++ [d], ?_, hidx, he, hkept, fun e he => ?_⟩
          · rw [List.append_assoc]
            rfl
          · rcases List.mem_append.mp he with he | he
            · exact hpost e he
            · exact List.mem_singleton.mp he ▸ hbare

-- == lines

variable {l : LineScan} {code : List Cell} {comment : Tendril} {t : Pos}

theorem Reads.solids (h : Reads l code comment t) :
    Parinfer.solids l = solid code := by
  unfold Parinfer.solids
  rw [h.take_codeEnd]
  rfl

theorem sorted_columns {forms : List OpenAt} {opens : List Open}
    (h : forms.map (fun form => (form.2 : Int)) = opens.map Open.xNew)
    (hopens : (opens.map Open.xNew).Pairwise (· > ·)) : Sorted forms := by
  rw [← h, List.pairwise_map] at hopens
  exact hopens.imp fun hlt => by simpa using hlt

/-- A line that begins inside a string is copied. -/
theorem ParenInv.string (h : ParenInv nested true lines [] state ds)
    (hreads : Reads l code comment t) (hstarts : l.startsInString = true)
    (hnested : nested →
      ((parenLine state l).stack.map Open.xNew).Pairwise (· > ·)) :
    ∃ ds', ParenInv nested l.endsInString (lines ++ [l]) []
      (parenLine state l) ds' := by
  obtain ⟨gap, pos, hgap, hws, hd, hbody, hrest, hin, hlast⟩ :=
    hreads.string hstarts
  let body := code.rdropWhile Cell.isWhitespace
  let d : Done := ⟨l, (takeStringLine l).1, body⟩
  have hindent : d.out.indent = [] := congrArg OutLine.indent hd
  have hclosers : d.out.closers = [] := congrArg OutLine.closers hd
  have hgapText : d.out.gap = chars gap := congrArg OutLine.gap hd
  have hput : Put d code comment t pos := by
    refine ⟨hreads, congrArg OutLine.raw hd, congrArg OutLine.code hd,
      congrArg OutLine.comment hd, ?_, ?_, hbody, hin.symm, ?_, ?_, ?_, ?_,
      ?_, ?_⟩
    · rw [hindent]
      exact nofun
    · rw [hgapText]
      intro c hc
      obtain ⟨cell, hcell, rfl⟩ := List.mem_map.mp hc
      exact hws cell hcell
    · intro _
      refine ⟨[], gap, hgap, nofun, hws, fun _ => ?_⟩
      rw [hindent]
      rfl
    · intro hesc hcomment
      rw [hgapText]
      rcases hreads.comment_cases with hnil | ⟨ht, -⟩
      · exact absurd hnil hcomment
      · intro hnil
        rw [chars_eq_nil.mp hnil] at hrest
        cases hrest
        rw [ht] at hesc
        cases hesc
    · rw [hclosers]
      exact fun hne => absurd rfl hne
    · rw [hclosers]
      exact fun hne => absurd rfl hne
    · rw [hclosers]
      exact nofun
    · intro hnew hmem
      rw [hindent, hgapText, List.nil_append, ← chars_append] at hmem
      refine hnew ?_
      rw [show d.line.cells = code ++ inert comment from hreads.cells,
        chars_append, hgap]
      exact List.mem_append_left _ hmem
  have hcells : l.cells = body ++ (gap ++ inert comment) := by
    rw [hreads.cells, ← List.append_assoc]
    exact congrArg (· ++ inert comment) hgap
  have hother : ∀ cell ∈ gap ++ inert comment, cell.isBracket = false := by
    intro cell hcell
    rcases List.mem_append.mp hcell with hcell | hcell
    · exact isBracket_of_isWhitespace (hws cell hcell)
    · obtain ⟨c, -, rfl⟩ := List.mem_map.mp hcell
      rfl
  have hforms : d.forms (formsAfter [] ds)
      = stringBrackets l.cells 0 (formsAfter [] ds) := by
    unfold Done.forms
    rw [hindent, hclosers, hcells, stringBrackets_append,
      stringBrackets_other hother]
    rfl
  have hline : (parenLine state l).out = state.out ++ [d.out]
      ∧ (parenLine state l).stack
        = parenBrackets 0 l.cells 0 state.stack
      ∧ (parenLine state l).lastCode = if (takeStringLine l).2
        then some state.out.length else state.lastCode := by
    unfold parenLine
    rw [if_pos hstarts]
    exact ⟨rfl, rfl, rfl⟩
  obtain ⟨hout, hstack, hcode⟩ := hline
  have hcolumns : (d.forms (formsAfter [] ds)).map
      (fun form => (form.2 : Int)) = (parenLine state l).stack.map Open.xNew := by
    rw [hforms, hstack]
    exact parenBrackets_spec 0 l.cells rfl h.columns
  refine ⟨ds ++ [d], h.add ⟨code, comment, t, pos, hput⟩ hout ?_ hcolumns ?_
    ?_ ?_⟩
  · have hsolid : d.solids = solid body := by
      unfold Done.solids
      rw [hclosers]
      exact List.append_nil _
    rw [hsolid, hreads.solids]
    conv_lhs => rw [hgap, solid_append, solid_eq_nil hws]
    exact List.append_nil _
  · exact ⟨fun hfalse => absurd (hstarts.symm.trans hfalse) nofun, trivial⟩
  · exact fun hn => sorted_columns hcolumns (hnested hn)
  · intro hends
    obtain ⟨hne, htakes⟩ := hlast hends
    rw [hcode, if_pos htakes]
    exact .inl ⟨rfl, hne⟩

/-- Closers that a line begins with close what is open, so that there is a
line with code for them to go into. -/
theorem ParenInv.lastCode_none (h : ParenInv nested false lines [] state ds)
    {rest : List Cell} (hlead : ∀ cell ∈ lead, inTrail cell = true)
    (hsolids : Parinfer.solids l = solid lead ++ rest)
    (hpair : (pair (brackets ((lines ++ [l]).flatMap Parinfer.solids))
      []).isSome)
    (hnone : state.lastCode = none) : chars (solid lead) = [] := by
  have hlast := h.last rfl
  rw [hnone] at hlast
  have hnil : lines.flatMap Parinfer.solids = [] := by
    rw [← h.lines, List.flatMap_map]
    exact (List.append_nil _).symm.trans
      (h.solids.symm.trans (solids_bare hlast))
  obtain ⟨hcells, hclosers⟩ := solid_inTrail hlead
  have hall : brackets ((lines ++ [l]).flatMap Parinfer.solids)
      = chars (solid lead) ++ brackets rest := by
    rw [List.flatMap_append, hnil, List.flatMap_singleton, hsolids,
      List.nil_append, brackets_append]
    conv_lhs => rw [hcells]
    rw [brackets_allLive hclosers]
  rw [hall, pair_append] at hpair
  cases hopen : pair (chars (solid lead)) [] with
  | none =>
      rw [hopen] at hpair
      cases hpair
  | some left => exact (pair_closers_nil hclosers hopen).1

theorem pushClosers_nil (lastCode : Option Nat) (out : List OutLine) :
    pushClosers [] lastCode out = out := by
  cases lastCode with
  | none => rfl
  | some idx =>
      have hid : (fun o : OutLine => { o with closers := o.closers ++ [] })
          = id := by
        funext o
        rw [List.append_nil]
        rfl
      unfold pushClosers
      dsimp only
      rw [hid, List.modify_id]

/-- Where paren mode puts what is left of a line. -/
def newIndent (start : Nat) (stack : List Open) : Int :=
  match stack with
  | p :: _ => max (start + p.delta) (p.xNew + 1)
  | [] => start

/-- A line that does not begin inside a string, in its parts. -/
theorem parenLine_code (hparts : ParenParts l code comment pre lead kept gap)
    (hstarts : l.startsInString = false) (state : ParenState)
    {stack : List Open}
    (hstack : stack = state.stack.drop (parenMoved l).length) {delta : Int}
    (hdelta : delta = newIndent (parenStart l) stack - parenStart l) :
    parenLine state l
      = if kept = [] ∧ comment = [] then
          { out := pushClosers (parenMoved l) state.lastCode state.out
              ++ [{ OutLine.new l with changed := !(parenMoved l).isEmpty }]
            deltas := state.deltas ++ [0]
            stack := stack
            lastCode := state.lastCode }
        else
          { out := pushClosers (parenMoved l) state.lastCode state.out
              ++ [{ OutLine.new l with
                indent := List.replicate (newIndent (parenStart l) stack).toNat
                  ' '
                code := chars kept
                gap := chars gap
                comment := comment
                changed := !(parenMoved l).isEmpty || delta ≠ 0 }]
            deltas := state.deltas ++ [delta]
            stack := parenBrackets delta kept (parenStart l) stack
            lastCode := if kept = [] then state.lastCode
              else some state.out.length } := by
  subst hstack hdelta
  have hstrip : (if (!(parenMoved l).isEmpty) = true then
      pushClosers (parenMoved l) state.lastCode state.out else state.out)
      = pushClosers (parenMoved l) state.lastCode state.out := by
    cases hmoved : parenMoved l with
    | nil => exact (pushClosers_nil _ _).symm
    | cons c moved => rfl
  have hblank : ((splitLine l).bodyEnd ≤ parenStart l
      ∧ (splitLine l).comment = []) ↔ kept = [] ∧ comment = [] := by
    rw [hparts.bodyEnd, hparts.start_eq, hparts.comment_eq,
      @List.length_append _ _ kept]
    refine and_congr_left fun _ => ?_
    rw [← List.length_eq_zero_iff]
    omega
  have hempty : (chars kept).isEmpty = true ↔ kept = [] :=
    List.isEmpty_iff.trans chars_eq_nil
  let body := (l.cells.take (splitLine l).bodyEnd).drop (parenStart l)
  let left := state.stack.drop (parenMoved l).length
  let delta := newIndent (parenStart l) left - parenStart l
  have hall : parenLine state l
      = if (splitLine l).bodyEnd ≤ parenStart l ∧ (splitLine l).comment = []
        then
          { out := (if (!(parenMoved l).isEmpty) = true then
                pushClosers (parenMoved l) state.lastCode state.out
              else state.out)
              ++ [{ OutLine.new l with changed := !(parenMoved l).isEmpty }]
            deltas := state.deltas ++ [0]
            stack := left
            lastCode := state.lastCode }
        else
          { out := (if (!(parenMoved l).isEmpty) = true then
                pushClosers (parenMoved l) state.lastCode state.out
              else state.out)
              ++ [{ OutLine.new l with
                indent := List.replicate (newIndent (parenStart l) left).toNat
                  ' '
                code := chars body
                gap := (splitLine l).gap
                comment := (splitLine l).comment
                changed := !(parenMoved l).isEmpty || delta ≠ 0 }]
            deltas := state.deltas ++ [delta]
            stack := parenBrackets delta body (parenStart l) left
            lastCode := if (chars body).isEmpty then state.lastCode
              else some state.out.length } := by
    unfold parenLine
    rw [if_neg (by rw [hstarts]; exact Bool.false_ne_true)]
    rfl
  rw [hall, hstrip, if_congr hblank rfl rfl]
  refine if_congr Iff.rfl rfl ?_
  rw [show body = kept from hparts.kept_eq, hparts.gapText,
    hparts.comment_eq, if_congr hempty rfl rfl]

theorem ParenParts.marks (h : ParenParts l code comment pre lead kept gap)
    (hm : Marks ⟨false, false⟩ code t) :
    ∃ pos, Marks ⟨false, false⟩ kept pos ∧ Marks pos gap t := by
  rw [h.code_eq] at hm
  obtain ⟨pos, hm, hgap⟩ := hm.split
  obtain ⟨t₂, hm, hkept⟩ := hm.split
  obtain ⟨t₁, hpre, hlead⟩ := hm.split
  have h₁ := hpre.inTrail rfl fun cell hcell =>
    inTrail_of_isWhitespace (h.pre_ws cell hcell)
  subst h₁
  have h₂ := hlead.inTrail rfl h.lead_inTrail
  subst h₂
  exact ⟨pos, hkept, hgap⟩

theorem ParenParts.solid_eq (h : ParenParts l code comment pre lead kept gap) :
    solid code = solid lead ++ solid kept := by
  rw [h.code_eq, solid_append, solid_append, solid_append,
    solid_eq_nil h.pre_ws, solid_eq_nil h.gap_ws, List.append_nil,
    List.nil_append]

theorem newIndent_spec (start : Nat) {stack : List Open}
    {forms : List OpenAt}
    (h : forms.map (fun form => (form.2 : Int)) = stack.map Open.xNew) :
    0 ≤ newIndent start stack
      ∧ ∀ form ∈ forms.head?, (form.2 : Int) < newIndent start stack := by
  cases stack with
  | nil =>
      rw [List.map_eq_nil_iff.mp h]
      exact ⟨Int.natCast_nonneg start, nofun⟩
  | cons p stack =>
      cases forms with
      | nil => cases h
      | cons form forms =>
          have hform : (form.2 : Int) = p.xNew := (List.cons.inj h).1
          have hmax : p.xNew + 1 ≤ newIndent start (p :: stack) :=
            Int.le_max_right _ _
          refine ⟨by omega, fun form' hform' => ?_⟩
          cases hform'
          omega

/-- A line that does not begin inside a string goes right of what is
open. -/
theorem ParenInv.line (h : ParenInv nested false lines [] state ds)
    (hreads : Reads l code comment t) (hstarts : l.startsInString = false)
    (hpair : (pair (brackets ((lines ++ [l]).flatMap Parinfer.solids))
      []).isSome) :
    ∃ ds', ParenInv nested l.endsInString (lines ++ [l]) []
      (parenLine state l) ds' := by
  obtain ⟨pre, lead, kept, gap, hparts⟩ := exists_parenParts hreads
  have hmarks := hreads.marks
  rw [hstarts] at hmarks
  obtain ⟨pos, hmk, hmg⟩ := hparts.marks hmarks
  have hin := hmg.inString_of_quote fun cell hcell =>
    (isWhitespace_ne (hparts.gap_ws cell hcell)).2.1
  have hsolids : Parinfer.solids l = solid lead ++ solid kept :=
    hreads.solids.trans hparts.solid_eq
  obtain ⟨hlead, hclosers⟩ := solid_inTrail hparts.lead_inTrail
  rw [← hparts.moved_eq] at hlead hclosers
  obtain ⟨ds', hpushed⟩ := h.push hclosers fun hnone =>
    hparts.moved_eq.trans
      (h.lastCode_none hparts.lead_inTrail hsolids hpair hnone)
  have hunmoved : (!(parenMoved l).isEmpty) = false → lead = [] :=
    fun hmoved => hparts.moved_nil (by simpa using hmoved)
  let stack := state.stack.drop (parenMoved l).length
  let delta := newIndent (parenStart l) stack - parenStart l
  have hline := parenLine_code hparts hstarts state (show stack = _ from rfl)
    (show delta = _ from rfl)
  by_cases hblank : kept = [] ∧ comment = []
  · rw [if_pos hblank] at hline
    obtain ⟨rfl, rfl⟩ := hblank
    cases hmk
    let d : Done := ⟨l, { OutLine.new l with
      changed := !(parenMoved l).isEmpty }, []⟩
    have hput : Put d code [] t ⟨false, false⟩ := by
      refine ⟨hreads, rfl, rfl, rfl, nofun, nofun, ?_, hin.symm, ?_, nofun,
        fun hne => absurd rfl hne, fun hne => absurd rfl hne, nofun,
        fun _ => nofun⟩
      · rw [show d.line.startsInString = false from hstarts]
        exact .nil _
      · intro hunchanged
        refine ⟨pre, gap, ?_, hparts.pre_ws, hparts.gap_ws, fun hne => ?_⟩
        · rw [hparts.code_eq, hunmoved hunchanged, List.append_nil]
        · exact absurd hne (by simp [d])
    rw [hline]
    refine ⟨ds' ++ [d], hpushed.add ⟨code, [], t, _, hput⟩ rfl ?_
      hpushed.columns ?_ hpushed.sorted fun _ => .inr ⟨rfl, rfl, rfl, rfl⟩⟩
    · rw [hsolids, hlead]
      rfl
    · exact ⟨fun _ => ⟨fun hne => absurd rfl hne,
        fun _ _ hne => absurd rfl hne⟩, trivial⟩
  · rw [if_neg hblank] at hline
    obtain ⟨hpos, hhead⟩ := newIndent_spec (parenStart l) hpushed.columns
    let column := (newIndent (parenStart l) stack).toNat
    have hcolumn : (column : Int) = newIndent (parenStart l) stack :=
      Int.toNat_of_nonneg hpos
    have hhead : ∀ form ∈ (formsAfter [] ds').head?, form.2 < column :=
      fun form hform => by
        have hlt : (form.2 : Int) < newIndent (parenStart l) stack :=
          hhead form hform
        omega
    let d : Done := ⟨l, { OutLine.new l with
      indent := List.replicate column ' '
      code := chars kept
      gap := chars gap
      comment := comment
      changed := !(parenMoved l).isEmpty || delta ≠ 0 }, kept⟩
    have hindent : d.out.indent.length = column := List.length_replicate
    have hput : Put d code comment t pos := by
      refine ⟨hreads, rfl, rfl, rfl, ?_, ?_, ?_, hin.symm, ?_, ?_,
        fun hne => absurd rfl hne, fun hne => absurd rfl hne, nofun, ?_⟩
      · intro c hc
        rw [List.eq_of_mem_replicate hc]
        rfl
      · intro c hc
        obtain ⟨cell, hcell, rfl⟩ := List.mem_map.mp hc
        exact hparts.gap_ws cell hcell
      · rw [show d.line.startsInString = false from hstarts]
        exact hmk
      · intro hunchanged
        obtain ⟨hmoved, hdelta⟩ := Bool.or_eq_false_iff.mp hunchanged
        have hlead := hunmoved hmoved
        have hstart := hparts.start_eq
        rw [hlead, List.append_nil] at hstart
        refine ⟨pre, gap, ?_, hparts.pre_ws, hparts.gap_ws, fun _ => ?_⟩
        · rw [hparts.code_eq, hlead, List.append_nil]
        · rw [hindent, ← hstart]
          have hzero : delta = 0 := by simpa using hdelta
          omega
      · intro hesc hcomment
        rcases hreads.comment_cases with hnil | ⟨ht, -⟩
        · exact absurd hnil hcomment
        · intro hnil
          rw [chars_eq_nil.mp hnil, ht] at hmg
          cases hmg
          cases hesc
      · intro hnew hmem
        have hcell : ∀ cell ∈ code, cell.char ≠ '\n' := fun cell hcell h =>
          hnew (h ▸ List.mem_map_of_mem
            (hreads.cells ▸ List.mem_append_left _ hcell))
        rcases List.mem_append.mp hmem with hmem | hmem
        · rcases List.mem_append.mp hmem with hmem | hmem
          · cases List.eq_of_mem_replicate hmem
          · obtain ⟨cell, hin, hchar⟩ := List.mem_map.mp hmem
            refine hcell cell ?_ hchar
            rw [hparts.code_eq]
            exact List.mem_append_left _ (List.mem_append_right _ hin)
        · obtain ⟨cell, hin, hchar⟩ := List.mem_map.mp hmem
          refine hcell cell ?_ hchar
          rw [hparts.code_eq]
          exact List.mem_append_right _ hin
    rw [hline]
    have hright (hn : nested) : ∀ form ∈ formsAfter [] ds',
        form.2 < column := by
      have hsorted := hpushed.sorted hn
      cases hforms : formsAfter [] ds' with
      | nil => exact nofun
      | cons form forms =>
          rw [hforms] at hhead hsorted
          have hform := hhead form rfl
          obtain ⟨houter, -⟩ := List.pairwise_cons.mp hsorted
          exact List.forall_mem_cons.mpr ⟨hform, fun form' hform' =>
            (houter form' hform').trans hform⟩
    refine ⟨ds' ++ [d], hpushed.add ⟨code, comment, t, pos, hput⟩ rfl ?_ ?_
      ?_ ?_ ?_⟩
    · rw [hsolids, hlead]
      exact congrArg (_ ++ ·) (List.append_nil _).symm
    · show (stringBrackets kept d.out.indent.length _).map _ = _
      rw [hindent]
      exact parenBrackets_spec delta kept (by omega) hpushed.columns
    · refine ⟨fun _ => ⟨fun _ form hform => ?_, fun hn _ _ form hform => ?_⟩,
        trivial⟩
      · rw [hindent]
        exact hhead form hform
      · rw [hindent]
        exact hright hn form hform
    · intro hn
      show Sorted (stringBrackets kept d.out.indent.length _)
      rw [hindent]
      exact Sorted.brackets (hpushed.sorted hn) (hright hn) kept
    · intro _
      by_cases hkept : kept = []
      · exact .inr ⟨rfl, if_pos hkept, hkept, rfl⟩
      · refine .inl ⟨(if_neg hkept).trans ?_, hkept⟩
        have hlen : (pushClosers (parenMoved l) state.lastCode
            state.out).length = state.out.length := by
          unfold pushClosers
          split
          · exact List.length_modify _ _ _
          · rfl
        exact congrArg some hlen.symm

end Zmax.Parinfer
