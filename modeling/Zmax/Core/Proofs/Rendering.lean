/-
What rendering a snippet leaves behind.

`Wrote r ps r'` says that from `r` to `r'` the text of a layout was
appended, that the offset grew by its length, and that every tabstop got
the places it has in the layout. It composes (`Wrote.trans`), so each step
of the renderer adds its piece, and a whole instance its layout
(`renderAt_spec`). Over the cursors the offsets in the new document are
those of the rope that the change list makes (`renderCursors_spec`).
-/
import Zmax.Core.Proofs.Changes
import Zmax.Core.Proofs.Revisions
import Zmax.Core.Snippets.Layout

namespace Zmax.Snippets

open Marked

variable {ρ : Type} {env : Environment} {ctx : SnippetRenderCtx ρ}
  {indent : Rope} {src : Snippet}

-- == writing

/-- The ranges of a tabstop in a layout at `pos`. -/
def rangesIn (pos : Nat) (ps : Layout) (i : TabstopIdx) : List Stdx.Range :=
  (spansOf pos ps i).map fun (start, stop) => ⟨start, stop⟩

theorem rangesIn_append (pos : Nat) (ps qs : Layout) (i : TabstopIdx) :
    rangesIn pos (ps ++ qs) i
      = rangesIn pos ps i ++ rangesIn (pos + (content ps).length) qs i := by
  unfold rangesIn
  rw [spansOf_append, List.map_append]

/-- The same tabstops, each with some ranges more. -/
structure Gained (ts ts' : List Render.Tabstop)
    (gain : TabstopIdx → List Stdx.Range) : Prop where
  length : ts'.length = ts.length
  get : ∀ (i : Nat) t, ts[i]? = some t → ∃ t', ts'[i]? = some t'
    ∧ t'.parent = t.parent ∧ t'.ranges = t.ranges ++ gain i

theorem Gained.refl (ts : List Render.Tabstop) :
    Gained ts ts fun _ => [] :=
  ⟨rfl, fun _ t ht => ⟨t, ht, rfl, (List.append_nil _).symm⟩⟩

variable {gain : TabstopIdx → List Stdx.Range} {ts : List Render.Tabstop}
  {b : Bool} {text : Tendril} {v w : ρ}

theorem Gained.trans {ts' ts'' : List Render.Tabstop}
    {gain' : TabstopIdx → List Stdx.Range} (h : Gained ts ts' gain)
    (h' : Gained ts' ts'' gain') :
    Gained ts ts'' fun i => gain i ++ gain' i := by
  refine ⟨h'.length.trans h.length, fun i t ht => ?_⟩
  obtain ⟨t', ht', hp, hr⟩ := h.get i t ht
  obtain ⟨t'', ht'', hp', hr'⟩ := h'.get i t' ht'
  exact ⟨t'', ht'', hp'.trans hp, by rw [hr', hr, List.append_assoc]⟩

theorem Gained.congr {ts' : List Render.Tabstop}
    {gain' : TabstopIdx → List Stdx.Range} (h : Gained ts ts' gain)
    (heq : ∀ i, gain i = gain' i) : Gained ts ts' gain' :=
  funext heq ▸ h

/-- A tabstop is changed in place, its parent and the others kept. -/
theorem gained_modify {dst dst' : RenderedSnippet} {idx : TabstopIdx}
    {f : Render.Tabstop → Render.Tabstop} {more : List Stdx.Range}
    (h : dst.modify idx f = .ok dst')
    (hparent : ∀ t, (f t).parent = t.parent)
    (hranges : ∀ t, (f t).ranges = t.ranges ++ more) :
    dst'.ranges = dst.ranges ∧ Gained dst.tabstops dst'.tabstops
      fun i => if i = idx then more else [] := by
  unfold RenderedSnippet.modify at h
  split at h
  case isFalse => cases h
  injection h with h
  subst h
  refine ⟨rfl, List.length_modify _ _ _, fun i t ht => ?_⟩
  by_cases hi : i = idx
  · subst hi
    refine ⟨f t, ?_, hparent t, ?_⟩
    · rw [List.getElem?_modify_eq, ht]
      rfl
    · rw [if_pos rfl]
      exact hranges t
  · refine ⟨t, ?_, rfl, ?_⟩
    · rw [List.getElem?_modify_ne _ _ (Ne.symm hi), ht]
    · rw [if_neg hi, List.append_nil]

/-- From `r` to `r'` a layout was written. -/
structure Wrote (r : SnippetRender ρ) (ps : Layout) (r' : SnippetRender ρ) :
    Prop where
  text : r'.text = r.text ++ content ps
  off : r'.off = r.off + (content ps).length
  ranges : r'.dst.ranges = r.dst.ranges
  tabstops : Gained r.dst.tabstops r'.dst.tabstops (rangesIn r.off ps)

variable {r r' r'' : SnippetRender ρ} {ps qs inner : Layout}

theorem Wrote.refl (r : SnippetRender ρ) : Wrote r [] r :=
  ⟨(List.append_nil _).symm, rfl, rfl, Gained.refl _⟩

theorem Wrote.trans (h : Wrote r ps r') (h' : Wrote r' qs r'') :
    Wrote r (ps ++ qs) r'' := by
  refine ⟨?_, ?_, h'.ranges.trans h.ranges, ?_⟩
  · rw [h'.text, h.text, content_append, List.append_assoc]
  · rw [h'.off, h.off, content_append, List.length_append, Nat.add_assoc]
  · refine (h.tabstops.trans h'.tabstops).congr fun i => ?_
    rw [rangesIn_append, h.off]

/-- A text is appended, and nothing else, and `b` says whether a line is
taken to start behind it. -/
structure Appended (r : SnippetRender ρ) (shown : Tendril) (b : Bool)
    (r' : SnippetRender ρ) : Prop where
  text : r'.text = r.text ++ shown
  off : r'.off = r.off + shown.length
  dst : r'.dst = r.dst
  vars : r'.vars = r.vars
  atNewline : r'.atNewline = b

theorem Appended.trans {xs ys : Tendril} {b' : Bool} (h : Appended r xs b r')
    (h' : Appended r' ys b' r'') : Appended r (xs ++ ys) b' r'' := by
  refine ⟨?_, ?_, h'.dst.trans h.dst, h'.vars.trans h.vars, h'.atNewline⟩
  · rw [h'.text, h.text, List.append_assoc]
  · rw [h'.off, h.off, List.length_append, Nat.add_assoc]

theorem Appended.wrote {xs : Tendril} (h : Appended r xs b r') :
    Wrote r [.plain xs] r' := by
  have hcontent : content [(.plain xs : Piece TabstopIdx Char)] = xs :=
    List.append_nil xs
  refine ⟨?_, ?_, by rw [h.dst], ?_⟩
  · rw [hcontent, h.text]
  · rw [hcontent, h.off]
  · rw [h.dst]
    exact (Gained.refl _).congr fun i => rfl

-- == texts

theorem pushStr_appended (normalized : Bool) (text : Tendril)
    (r : SnippetRender ρ) :
    Appended r (shownLine env ctx indent normalized r.atNewline text).1
      (shownLine env ctx indent normalized r.atNewline text).2
      (r.pushStr env ctx indent text normalized) := by
  unfold SnippetRender.pushStr shownLine
  cases normalized with
  | false => exact ⟨rfl, rfl, rfl, rfl, rfl⟩
  | true =>
      simp only [if_true]
      generalize normalizeIndentation env ctx indent text = norm
      obtain ⟨blanks, oldIndentLen⟩ := norm
      dsimp only
      split
      case isTrue hempty =>
        rw [hempty, List.isEmpty_iff.mp hempty, List.append_nil]
        exact ⟨rfl, rfl, rfl, rfl, rfl⟩
      case isFalse hne =>
        refine ⟨List.append_assoc _ _ _, ?_, rfl, rfl, ?_⟩
        · rw [List.length_append]
          exact Nat.add_assoc _ _ _
        · rw [Bool.eq_false_iff.mpr hne]
          rfl

theorem pushNewline_appended (r : SnippetRender ρ) :
    Appended r (ctx.lineEnding ++ indent) r.atNewline
      (r.pushNewline ctx indent) := by
  refine ⟨List.append_assoc _ _ _, ?_, rfl, rfl, rfl⟩
  rw [List.length_append]
  rfl

theorem pushLines_appended (lines : List Tendril) (r : SnippetRender ρ) :
    Appended r (shownLines env ctx indent r.atNewline lines).1
      (shownLines env ctx indent r.atNewline lines).2
      (r.pushLines env ctx indent lines) := by
  induction lines generalizing r with
  | nil => exact ⟨(List.append_nil _).symm, rfl, rfl, rfl, rfl⟩
  | cons line lines ih =>
      have hnewline := @pushNewline_appended ρ ctx indent r
      have hline := @pushStr_appended ρ env ctx indent true line
        (r.pushNewline ctx indent)
      have hlines := ih ((r.pushNewline ctx indent).pushStr env ctx
        indent line true)
      rw [hline.atNewline] at hlines
      exact (hnewline.trans hline).trans hlines

/-- A text is appended as it is shown, and counted so. -/
theorem pushMultilineStr_appended {shown : Tendril} (r : SnippetRender ρ)
    (h : shownText env ctx indent r.atNewline text = (shown, b)) :
    Appended r shown b (r.pushMultilineStr env ctx indent text) := by
  unfold shownText at h
  unfold SnippetRender.pushMultilineStr
  cases hsplit : (text.splitOn '\n').map Text.stripCr with
  | nil =>
      rw [hsplit] at h
      injection h with hshown hb
      subst hshown hb
      exact ⟨(List.append_nil _).symm, rfl, rfl, rfl, rfl⟩
  | cons firstLine lines =>
      rw [hsplit] at h
      injection h with hshown hb
      subst hshown hb
      have hfirst := @pushStr_appended ρ env ctx indent r.atNewline firstLine
        r
      have hlines := @pushLines_appended ρ env ctx indent lines
        (r.pushStr env ctx indent firstLine r.atNewline)
      rw [hfirst.atNewline] at hlines
      exact hfirst.trans hlines

-- == elements

/-- Where a renderer is. -/
def SnippetRender.point (self : SnippetRender ρ) : Point ρ :=
  ⟨self.vars, self.atNewline⟩

/-- A layout of elements is written, in which some tabstops are shown. -/
structure Renders (env : Environment) (ctx : SnippetRenderCtx ρ)
    (indent : Rope) (src : Snippet) (r : SnippetRender ρ)
    (elements : List SnippetElement) (ps : Layout) (r' : SnippetRender ρ) :
    Prop where
  wrote : Wrote r ps r'
  laid : Laid env ctx indent src r.point elements ps r'.point
  shown : Shown src ctx r.vars elements (marks ps) r'.vars

/-- What rendering a tabstop has to do. -/
abbrev RendersTabstop (env : Environment) (ctx : SnippetRenderCtx ρ)
    (indent : Rope) (src : Snippet)
    (tabstop : TabstopIdx → SnippetRender ρ → Result (SnippetRender ρ)) :
    Prop :=
  ∀ idx r r', tabstop idx r = .ok r' → ∃ t inner,
    src.tabstops[idx]? = some t
    ∧ Laid env ctx indent src r.point t.kind.default inner r'.point
    ∧ Shown src ctx r.vars t.kind.default (marks inner) r'.vars
    ∧ Wrote r [.mark idx inner] r'

/-- A text is pushed in front of what is rendered next. -/
theorem Renders.pushed {element : SnippetElement}
    {rest : List SnippetElement}
    (hlaid : ∀ {b shown ps q},
      shownText env ctx indent r.atNewline text = (shown, b) →
      Laid env ctx indent src ⟨v, b⟩ rest ps q →
      Laid env ctx indent src r.point (element :: rest) (.plain shown :: ps)
        q)
    (hshown : ∀ {is w}, Shown src ctx v rest is w →
      Shown src ctx r.vars (element :: rest) is w)
    (hpush : ({ r with vars := v } : SnippetRender ρ).pushMultilineStr env
      ctx indent text = r')
    (h : Renders env ctx indent src r' rest ps r'') :
    ∃ qs, Renders env ctx indent src r (element :: rest) qs r'' := by
  cases hs : shownText env ctx indent r.atNewline text with
  | mk shown b =>
      have ha := pushMultilineStr_appended { r with vars := v } hs
      rw [hpush] at ha
      have hw := ha.wrote
      have hw' : Wrote r [.plain shown] r' :=
        ⟨hw.text, hw.off, hw.ranges, hw.tabstops⟩
      have hvars : r'.vars = v := ha.vars
      have hpoint : r'.point = ⟨v, b⟩ := by
        unfold SnippetRender.point
        rw [hvars, ha.atNewline]
      refine ⟨.plain shown :: ps, hw'.trans h.wrote, ?_, ?_⟩
      · exact hlaid hs (hpoint ▸ h.laid)
      · exact hshown (hvars ▸ h.shown)

/-- A variable that is not resolved shows its default. -/
theorem Renders.unresolved {name : Tendril}
    {default : Option (List SnippetElement)} {rest : List SnippetElement}
    (transform : Option Transform)
    (hres : ctx.resolveVar r.vars name = (none, v))
    (hdefault : Renders env ctx indent src { r with vars := v }
      (default.getD []) inner r')
    (h : Renders env ctx indent src r' rest ps r'') :
    Renders env ctx indent src r
      (.variable name default transform :: rest) (inner ++ ps) r'' := by
  have hw := hdefault.wrote
  refine ⟨Wrote.trans ⟨hw.text, hw.off, hw.ranges, hw.tabstops⟩ h.wrote,
    .unresolved transform hres hdefault.laid h.laid, ?_⟩
  rw [marks_append]
  exact .unresolved transform hres hdefault.shown h.shown

mutual

theorem renderElement_spec
    {tabstop : TabstopIdx → SnippetRender ρ → Result (SnippetRender ρ)}
    (ht : RendersTabstop env ctx indent src tabstop) :
    ∀ (element : SnippetElement) {r r' r'' : SnippetRender ρ}
      {rest : List SnippetElement} {ps : Layout},
      SnippetRender.renderElement env ctx indent tabstop element r = .ok r' →
      Renders env ctx indent src r' rest ps r'' →
      ∃ qs, Renders env ctx indent src r (element :: rest) qs r''
  | .tabstop idx, r, r', r'', rest, ps, h, hrest => by
      obtain ⟨t, inner, hsrc, hlaid, hshown, hw⟩ := ht idx r r' h
      exact ⟨.mark idx inner :: ps, hw.trans hrest.wrote,
        .tabstop hsrc hlaid hrest.laid, .tabstop hsrc hshown hrest.shown⟩
  | .text text, r, r', r'', rest, ps, h, hrest => by
      injection h with h
      exact Renders.pushed .text (.text text) h hrest
  | .variable name none transform, r, r', r'', rest, ps, h, hrest => by
      unfold SnippetRender.renderElement SnippetRender.resolveVar at h
      cases hres : ctx.resolveVar r.vars name with
      | mk val vars =>
          rw [hres] at h
          cases val with
          | some val =>
              injection h with h
              exact Renders.pushed (.resolved none hres)
                (.resolved none transform hres) h hrest
          | none =>
              injection h with h
              subst h
              exact ⟨_, Renders.unresolved transform hres
                ⟨Wrote.refl _, .nil _, .nil _⟩ hrest⟩
  | .variable name (some default) transform, r, r', r'', rest, ps, h,
      hrest => by
      unfold SnippetRender.renderElement SnippetRender.resolveVar at h
      cases hres : ctx.resolveVar r.vars name with
      | mk val vars =>
          rw [hres] at h
          cases val with
          | some val =>
              injection h with h
              exact Renders.pushed (.resolved (some default) hres)
                (.resolved (some default) transform hres) h hrest
          | none =>
              obtain ⟨inner, hinner⟩ := renderElements_spec ht default h
              exact ⟨_, Renders.unresolved transform hres hinner hrest⟩

/-- Rendering elements writes a layout of them. -/
theorem renderElements_spec
    {tabstop : TabstopIdx → SnippetRender ρ → Result (SnippetRender ρ)}
    (ht : RendersTabstop env ctx indent src tabstop) :
    ∀ (elements : List SnippetElement) {r r' : SnippetRender ρ},
      SnippetRender.renderElements env ctx indent tabstop elements r
        = .ok r' →
      ∃ ps, Renders env ctx indent src r elements ps r'
  | [], r, r', h => by
      injection h with h
      subst h
      exact ⟨[], Wrote.refl _, .nil _, .nil _⟩
  | element :: rest, r, r', h => by
      obtain ⟨r₁, he, hrest⟩ := bind_eq_ok.mp h
      obtain ⟨ps, hps⟩ := renderElements_spec ht rest hrest
      exact renderElement_spec ht element he hps

end

-- == tabstops

/-- The range of a tabstop is added behind those inside it. -/
theorem pushRange_wrote {idx : TabstopIdx} (hw : Wrote r inner r')
    (h : r'.pushRange idx r.off = .ok r'') :
    Wrote r [.mark idx inner] r'' ∧ r''.point = r'.point := by
  obtain ⟨dst, hdst, h⟩ := bind_eq_ok.mp h
  injection h with h
  subst h
  obtain ⟨hranges, hgain⟩ := gained_modify hdst (fun _ => rfl)
    (fun _ => rfl)
  have hcontent : content [(.mark idx inner : Piece TabstopIdx Char)]
      = content inner := List.append_nil _
  refine ⟨⟨?_, ?_, hranges.trans hw.ranges, ?_⟩, rfl⟩
  · rw [hcontent, hw.text]
  · rw [hcontent, hw.off]
  · refine (hw.tabstops.trans hgain).congr fun i => ?_
    unfold rangesIn spansOf
    simp only [spans, Piece.spans, List.append_nil, List.filter_append,
      List.map_append, List.filter_singleton]
    by_cases hi : i = idx
    · simp [hi, hw.off]
    · simp [hi, Ne.symm hi]

theorem renderTabstop_spec (fuel : Nat) :
    RendersTabstop env ctx indent src
      (SnippetRender.renderTabstop env ctx src indent fuel) := by
  induction fuel with
  | zero =>
      intro idx r r' h
      cases h
  | succ fuel ih =>
      intro idx r r' h
      obtain ⟨t, ht, h⟩ := bind_eq_ok.mp h
      rw [index_eq_ok] at ht
      split at h
      · next element default hk =>
          obtain ⟨r₁, hels, h⟩ := bind_eq_ok.mp h
          obtain ⟨dst, hdst, h⟩ := bind_eq_ok.mp h
          obtain ⟨inner, hw, hlaid, hshown⟩ := renderElements_spec ih _ hels
          obtain ⟨hranges, hgain⟩ := @gained_modify _ _ _ _ [] hdst
            (fun _ => rfl) (fun _ => (List.append_nil _).symm)
          have hw' : Wrote r inner { r₁ with dst := dst } := by
            refine ⟨hw.text, hw.off, hranges.trans hw.ranges, ?_⟩
            refine (hw.tabstops.trans hgain).congr fun i => ?_
            rw [ite_self, List.append_nil]
          obtain ⟨hmark, hpoint⟩ := pushRange_wrote hw' h
          have hvars : r'.vars = r₁.vars := congrArg Point.vars hpoint
          refine ⟨t, inner, ht, ?_, ?_, hmark⟩
          · rw [hpoint, hk]
            exact hlaid
          · rw [hvars, hk]
            exact hshown
      · next hk =>
          obtain ⟨hmark, hpoint⟩ := pushRange_wrote (Wrote.refl r) h
          have hvars : r'.vars = r.vars := congrArg Point.vars hpoint
          have hdefault : t.kind.default = [] := by
            cases hkind : t.kind with
            | placeholder default =>
                cases default with
                | nil => rfl
                | cons element default => exact absurd hkind (hk _ _)
            | choice choices => rfl
            | empty => rfl
            | transform transform => rfl
          refine ⟨t, [], ht, ?_, ?_, hmark⟩
          · rw [hpoint, hdefault]
            exact .nil _
          · rw [hvars, hdefault]
            exact .nil _

/-- An instance: the text of a layout of the snippet, its length, and the
places of the layout for ranges. -/
theorem renderAt_spec {snippet snippet' : RenderedSnippet} {atNewline : Bool}
    {vars vars' : ρ} {pos len : Nat}
    (h : src.renderAt env ctx snippet indent atNewline vars pos
      = .ok (text, len, snippet', vars')) :
    ∃ layout b,
      Laid env ctx indent src ⟨vars, atNewline⟩ src.elements layout
        ⟨vars', b⟩
      ∧ Shown src ctx vars src.elements (marks layout) vars'
      ∧ text = content layout ∧ len = text.length
      ∧ snippet'.ranges = snippet.ranges ++ [⟨pos, pos + text.length⟩]
      ∧ Gained snippet.tabstops snippet'.tabstops (rangesIn pos layout) := by
  obtain ⟨r, hr, h⟩ := bind_eq_ok.mp h
  injection h with h
  injection h with htext h
  injection h with hlen h
  injection h with hsnippet hvars
  subst hvars
  obtain ⟨layout, hw, hlaid, hshown⟩ := renderElements_spec
    (renderTabstop_spec (src.tabstops.length + 1)) src.elements hr
  have htext' : text = content layout := by
    rw [← htext, hw.text]
    rfl
  have hoff : r.off = pos + text.length := by
    rw [hw.off, htext']
  refine ⟨layout, _, hlaid, hshown, htext', ?_, ?_, ?_⟩
  · rw [← hlen, hoff, Nat.add_sub_cancel_left]
  · rw [← hsnippet, ← hoff]
    exact congrArg (· ++ _) hw.ranges
  · rw [← hsnippet]
    exact hw.tabstops

-- == cursors

/-- An instance stands in a text whose first char is the `base`-th of the
document. -/
def Instance.StandsIn (self : Instance) (text : Rope) (base : Nat) : Prop :=
  ∃ before after, text = before ++ self.text ++ after
    ∧ self.pos = base + before.length

theorem Instance.StandsIn.behind {inst : Instance} {text : Rope}
    {base : Nat} (pre : Rope) (h : inst.StandsIn text (base + pre.length)) :
    inst.StandsIn (pre ++ text) base := by
  obtain ⟨before, after, htext, hpos⟩ := h
  refine ⟨pre ++ before, after, ?_, ?_⟩
  · rw [htext, List.append_assoc, List.append_assoc, List.append_assoc]
  · rw [hpos, List.length_append, Nat.add_assoc]

variable {unicodeLines : Bool} {doc : Rope}

/-- One cursor: an instance at its place in the new document, by which
the document grows or shrinks. -/
theorem renderCursor_spec {start stop pos : Nat} {text : Tendril}
    {state state' : RenderState ρ}
    (h : src.renderCursor env ctx unicodeLines doc start stop state
      = .ok (text, state')) (hpos : (pos : Int) = start + state.off) :
    ∃ indent atNewline layout b,
      indentAt unicodeLines doc start = .ok (indent, atNewline)
      ∧ Laid env ctx indent src ⟨state.vars, atNewline⟩ src.elements layout
        ⟨state'.vars, b⟩
      ∧ Shown src ctx state.vars src.elements (marks layout) state'.vars
      ∧ text = content layout
      ∧ state'.off = pos + text.length - stop
      ∧ state'.snippet.ranges
        = state.snippet.ranges ++ [⟨pos, pos + text.length⟩]
      ∧ Gained state.snippet.tabstops state'.snippet.tabstops
        (rangesIn pos layout) := by
  obtain ⟨lineIdx, hidx, h⟩ := bind_eq_ok.mp h
  obtain ⟨lineStart, hstart, h⟩ := bind_eq_ok.mp h
  obtain ⟨linePrefix, hprefix, h⟩ := bind_eq_ok.mp h
  obtain ⟨⟨replacement, len, snippet, vars⟩, hat, h⟩ := bind_eq_ok.mp h
  injection h with h
  injection h with htext hstate
  subst htext hstate
  rw [show (start + state.off).toNat = pos from by omega] at hat
  obtain ⟨layout, b, hlaid, hshown, htext, hlen, hranges, hgain⟩ :=
    renderAt_spec hat
  refine ⟨_, _, layout, b, ?_, hlaid, hshown, htext, ?_, hranges, hgain⟩
  · unfold indentAt
    rw [hidx, ok_bind, hstart, ok_bind, hprefix]
    rfl
  · dsimp only
    omega

/-- Over the cursors: the changes put an instance in the place of each
range that is kept, and where the list is ordered, it stands in the text
they make of the document. -/
theorem renderCursors_spec {len : Nat} {ranges : List (Nat × Nat)}
    {i last pos : Nat} {state state' : RenderState ρ}
    {changes : List Change} {kept : List Nat}
    (h : src.renderCursors env ctx unicodeLines doc ranges i last state
      = .ok (changes, kept, state'))
    (hordered : Ordered len last changes) (hlen : len = doc.length)
    (hpos : (pos : Int) = last + state.off) :
    ∃ instances : List Instance,
      changes = replacements (keptRanges last ranges) instances
      ∧ LaidAll src env ctx unicodeLines doc state.vars
        (keptRanges last ranges) instances state'.vars
      ∧ ShownAll src ctx state.vars
        (instances.map fun inst => marks inst.layout) state'.vars
      ∧ state'.snippet.ranges
        = state.snippet.ranges ++ instances.map Instance.range
      ∧ Gained state.snippet.tabstops state'.snippet.tabstops
        (fun j => instances.flatMap (·.rangesOf j))
      ∧ ∀ inst ∈ instances,
        inst.StandsIn (replaceAll doc last changes) pos := by
  induction ranges generalizing i last pos state changes kept with
  | nil =>
      injection h with h
      injection h with hchanges h
      injection h with hkept hstate
      subst hstate hchanges
      exact ⟨[], rfl, .nil _, .nil _, (List.append_nil _).symm,
        Gained.refl _, nofun⟩
  | cons range ranges ih =>
      obtain ⟨start, stop⟩ := range
      unfold Snippet.renderCursors at h
      unfold keptRanges
      split at h
      case isTrue hlt =>
        rw [if_pos hlt]
        exact ih h hordered hpos
      case isFalse hle =>
        rw [if_neg hle]
        obtain ⟨⟨text, state₁⟩, hcursor, h⟩ := bind_eq_ok.mp h
        obtain ⟨⟨changes₁, kept₁, state₂⟩, hrest, h⟩ := bind_eq_ok.mp h
        injection h with h
        injection h with hchanges h
        injection h with hkept hstate
        subst hstate hchanges
        obtain ⟨hlast, hstop, hordered⟩ := hordered
        obtain ⟨indent, atNewline, layout, b, hindent, hlaid, hshown, htext,
          hoff, hranges, hgain⟩ := @renderCursor_spec _ _ _ _ _ _ start stop
            (pos + (start - last)) _ _ _ hcursor (by omega)
        obtain ⟨instances, hchanges, hall, hshownAll, hranges', hgain',
          hstands⟩ := @ih _ stop (pos + (start - last) + text.length) _ _ _
            hrest hordered (by omega)
        let inst : Instance := ⟨pos + (start - last), layout⟩
        have hinst : inst.text = text := htext.symm
        have hgap : ((doc.drop last).take (start - last)).length
            = start - last := by
          have hle := hordered.le
          rw [List.length_take, List.length_drop]
          omega
        refine ⟨inst :: instances, ?_, .cons stop _ hindent hlaid hall,
          .cons hshown hshownAll, ?_, ?_, ?_⟩
        · unfold replacements
          rw [List.zipWith_cons_cons, hinst]
          exact congrArg _ hchanges
        · rw [hranges', hranges, List.map_cons, Instance.range, hinst,
            List.append_assoc]
          rfl
        · exact (hgain.trans hgain').congr fun j => rfl
        · intro inst' hmem
          unfold replaceAll
          rcases List.mem_cons.mp hmem with rfl | hmem
          · refine ⟨(doc.drop last).take (start - last),
              replaceAll doc stop changes₁, ?_, ?_⟩
            · rw [hinst]
              rfl
            · rw [hgap]
          · refine Instance.StandsIn.behind _ ?_
            rw [List.length_append, hgap, ← Nat.add_assoc]
            exact hstands inst' hmem

theorem LaidAll.length {ranges : List (Nat × Nat)}
    {instances : List Instance}
    (h : LaidAll src env ctx unicodeLines doc v ranges instances w) :
    ranges.length = instances.length := by
  induction h with
  | nil => rfl
  | cons _ _ _ _ _ ih => rw [List.length_cons, List.length_cons, ih]

-- == what is shown

/-- What is shown, and what the resolver captures in the end, depends on
the resolver and the snippet alone. -/
theorem Shown.unique {w' : ρ} {elements : List SnippetElement}
    {is js : List TabstopIdx} (h : Shown src ctx v elements is w)
    (h' : Shown src ctx v elements js w') : is = js ∧ w = w' := by
  induction h generalizing js w' with
  | nil =>
      cases h'
      exact ⟨rfl, rfl⟩
  | text text _ ih =>
      cases h' with
      | text _ hrest => exact ih hrest
  | tabstop ht _ _ ihinner ih =>
      cases h' with
      | tabstop ht' hinner hrest =>
          injection ht.symm.trans ht' with heq
          subst heq
          obtain ⟨rfl, rfl⟩ := ihinner hinner
          obtain ⟨rfl, rfl⟩ := ih hrest
          exact ⟨rfl, rfl⟩
  | resolved default transform hres _ ih =>
      cases h' with
      | resolved _ _ hres' hrest =>
          injection hres.symm.trans hres' with _ heq
          subst heq
          exact ih hrest
      | unresolved _ hres' =>
          injection hres.symm.trans hres' with heq _
          cases heq
  | unresolved transform hres _ _ ihinner ih =>
      cases h' with
      | resolved _ _ hres' =>
          injection hres.symm.trans hres' with heq _
          cases heq
      | unresolved _ hres' hinner hrest =>
          injection hres.symm.trans hres' with _ heq
          subst heq
          obtain ⟨rfl, rfl⟩ := ihinner hinner
          obtain ⟨rfl, rfl⟩ := ih hrest
          exact ⟨rfl, rfl⟩

theorem ShownAll.unique {w' : ρ} {iss jss : List (List TabstopIdx)}
    (h : ShownAll src ctx v iss w) (h' : ShownAll src ctx v jss w')
    (hlen : iss.length = jss.length) : iss = jss := by
  induction h generalizing jss w' with
  | nil =>
      cases h' with
      | nil => rfl
      | cons => cases hlen
  | cons hshown _ ih =>
      cases h' with
      | nil => cases hlen
      | cons hshown' hall =>
          obtain ⟨rfl, rfl⟩ := hshown.unique hshown'
          rw [ih hall (Nat.succ.inj hlen)]

/-- One rendering tells whether all tabstops are shown. -/
theorem showsAll_iff {iss : List (List TabstopIdx)}
    (h : ShownAll src ctx v iss w) : ShowsAll src ctx v iss.length ↔
      ∀ is ∈ iss, ∀ i, i < src.tabstops.length → i ∈ is := by
  refine ⟨fun hall => hall iss w h rfl, fun hall jss w' h' hlen => ?_⟩
  rw [h'.unique h hlen]
  exact hall

-- == recording

theorem gained_prepare (src : Snippet)
    (h : Gained src.prepareRender.tabstops ts gain) {i : Nat}
    {t : Render.Tabstop} (ht : ts[i]? = some t) :
    ∃ t', src.tabstops[i]? = some t' ∧ t.parent = t'.parent
      ∧ t.ranges = gain i := by
  obtain ⟨hi, -⟩ := List.getElem?_eq_some_iff.mp ht
  have hi' : i < src.tabstops.length := by
    rw [h.length] at hi
    exact @List.length_map _ _ src.tabstops _ ▸ hi
  have hsrc := List.getElem?_eq_getElem hi'
  have hprepared : src.prepareRender.tabstops[i]? = _ :=
    (List.getElem?_map ..).trans (congrArg _ hsrc)
  obtain ⟨t', ht', hp, hr⟩ := h.get i _ hprepared
  injection ht.symm.trans ht' with heq
  subst heq
  exact ⟨_, hsrc, hp, hr⟩

theorem Instance.mem_rangesOf {inst : Instance} {i : TabstopIdx}
    {range : Stdx.Range} : range ∈ inst.rangesOf i ↔
      ∃ off inner, Stands inst.layout off i inner
        ∧ range = inst.place off inner := by
  unfold rangesOf place
  rw [List.mem_map]
  constructor
  · rintro ⟨⟨a, b⟩, hab, rfl⟩
    obtain ⟨off, inner, hs, rfl, rfl⟩ := mem_spansOf.mp hab
    exact ⟨off, inner, hs, rfl⟩
  · rintro ⟨off, inner, hs, rfl⟩
    exact ⟨_, mem_spansOf.mpr ⟨off, inner, hs, rfl, rfl⟩, rfl⟩

theorem Instance.StandsIn.slice {inst : Instance} {text : Rope}
    (h : inst.StandsIn text 0) {before after : Rope} {inner : Layout}
    (hinst : inst.text = before ++ content inner ++ after) :
    Zmax.slice text (inst.place before.length inner).start
      (inst.place before.length inner).stop = .ok (content inner) := by
  obtain ⟨pre, post, htext, hpos⟩ := h
  rw [Nat.zero_add] at hpos
  have htext' : text
      = (pre ++ before) ++ (content inner ++ (after ++ post)) := by
    rw [htext, hinst]
    simp only [List.append_assoc]
  unfold place
  dsimp only
  rw [hpos, ← List.length_append, slice_of_le (Nat.le_add_right _ _),
    Nat.add_sub_cancel_left, htext', List.drop_left, List.take_left]
  rw [htext', @List.length_append _ (pre ++ before),
    @List.length_append _ (content inner)]
  omega

theorem recorded {newDoc : Rope} {instances : List Instance}
    {snippet : RenderedSnippet}
    (hranges : snippet.ranges = instances.map Instance.range)
    (hgain : Gained src.prepareRender.tabstops snippet.tabstops
      fun i => instances.flatMap (·.rangesOf i))
    (hstands : ∀ inst ∈ instances, inst.StandsIn newDoc 0) :
    Recorded src newDoc instances snippet where
  ranges := hranges
  text := fun inst hinst => by
    have hslice := @Instance.StandsIn.slice inst newDoc (hstands inst hinst)
      [] [] inst.layout (List.append_nil _).symm
    exact hslice
  count := hgain.length.trans (List.length_map _)
  parents := fun i t t' ht ht' => by
    obtain ⟨t'', ht'', hp, -⟩ := gained_prepare src hgain ht
    injection ht'.symm.trans ht'' with heq
    rw [heq, hp]
  tabstops := fun i t ht => by
    obtain ⟨-, -, -, hr⟩ := gained_prepare src hgain ht
    exact hr
  stands := fun inst _ i range => inst.mem_rangesOf
  content := fun inst hinst off i inner hs => by
    obtain ⟨before, after, htext, hlen⟩ := hs.content
    subst hlen
    refine ⟨(hstands inst hinst).slice htext, ?_⟩
    have hle := hs.length_le
    unfold Stdx.Range.contains Instance.place Instance.range Instance.text
    simp only [Bool.and_eq_true, decide_eq_true_eq]
    omega
  nested := fun inst _ off i inner off' j inner' hs hs' => by
    refine ⟨hs.trans hs', ?_⟩
    have hle := hs'.length_le
    unfold Stdx.Range.contains Instance.place
    simp only [Bool.and_eq_true, decide_eq_true_eq]
    omega

-- == selections

/-- With a range for each instance, a tabstop has a selection from every
one of them. -/
theorem selection_ok {t : Render.Tabstop} {n primary : Nat}
    (hle : n ≤ t.ranges.length) (hlt : primary < n)
    (direction : Direction) :
    ∃ selection, t.selection direction primary n = .ok selection := by
  unfold Render.Tabstop.selection Selection.new
  have hpos : 0 < n := Nat.lt_of_le_of_lt (Nat.zero_le _) hlt
  rw [decide_eq_true hpos, assert_true, ok_bind]
  have hper : 0 < t.ranges.length / n := Nat.div_pos hle hpos
  have hidx : primary * (t.ranges.length / n) < t.ranges.length :=
    Nat.lt_of_lt_of_le (Nat.mul_lt_mul_of_pos_right hlt hper)
      (Nat.mul_div_le _ _)
  rw [dif_pos (by rw [List.length_map]; exact hidx)]
  exact ⟨_, rfl⟩

theorem length_flatMap_ge {α β : Type} {f : α → List β} {xs : List α}
    (h : ∀ x ∈ xs, f x ≠ []) : xs.length ≤ (xs.flatMap f).length := by
  induction xs with
  | nil => exact Nat.le_refl _
  | cons x xs ih =>
      have hx := List.length_pos_of_ne_nil (h x List.mem_cons_self)
      have hxs := ih fun y hy => h y (List.mem_cons_of_mem _ hy)
      rw [List.flatMap_cons, List.length_append, List.length_cons]
      omega

-- == render

/-- What is rendered is recorded, at every cursor and in every nesting.
Each tabstop has a range in each instance, and with them a selection
from any, exactly where every tabstop is shown in every instance. -/
theorem rendering_law (src : Snippet) (env : Environment)
    (ctx : SnippetRenderCtx ρ) (unicodeLines : Bool) (doc : Rope)
    (selection : Selection) (changeRange : Range → Nat × Nat)
    (vars vars' : ρ) (tx : Transaction) (newSelection : Selection)
    (snippet : RenderedSnippet)
    (h : src.render env ctx unicodeLines doc selection changeRange vars
      = .ok (tx, newSelection, snippet, vars')) :
    ∃ newDoc instances,
      tx.apply doc = .ok (true, newDoc)
      ∧ ChangeSet.fromChanges doc (replacements
          (keptRanges 0 (selection.ranges.map changeRange)) instances)
        = .ok tx.changes
      ∧ LaidAll src env ctx unicodeLines doc vars
        (keptRanges 0 (selection.ranges.map changeRange)) instances vars'
      ∧ Recorded src newDoc instances snippet
      ∧ ((∀ (i : Nat) t, snippet.tabstops[i]? = some t →
          (∀ inst ∈ instances, inst.rangesOf i ≠ [])
          ∧ ∀ direction primary, primary < snippet.ranges.length →
            ∃ s, t.selection direction primary snippet.ranges.length
              = .ok s)
        ↔ ShowsAll src ctx vars
          (keptRanges 0 (selection.ranges.map changeRange)).length) := by
  obtain ⟨⟨changes, kept, state⟩, hcursors, h⟩ := bind_eq_ok.mp h
  obtain ⟨changeset, hchanges, h⟩ := bind_eq_ok.mp h
  obtain ⟨ranges, -, h⟩ := bind_eq_ok.mp h
  obtain ⟨newSelection, -, h⟩ := bind_eq_ok.mp h
  injection h with h
  injection h with htx h
  injection h with _ h
  injection h with hsnippet hvars
  subst htx hsnippet hvars
  have hordered := ChangeSet.ordered_of_fromChanges hchanges
  obtain ⟨instances, hrep, hall, hshown, hranges, hgain, hstands⟩ :=
    @renderCursors_spec _ _ _ _ _ _ _ _ 0 0 0 _ _ _ _ hcursors hordered rfl
      rfl
  obtain ⟨changeset', hchanges', hcarries⟩ :=
    ChangeSet.fromChanges_carries hordered
  injection hchanges.symm.trans hchanges' with heq
  subst heq
  have hrec := recorded hranges hgain hstands
  have hiff := showsAll_iff hshown
  rw [List.length_map, ← hall.length] at hiff
  refine ⟨_, instances, Transaction.Carries.turns hcarries, hrep ▸ hchanges,
    hall, hrec, ?_⟩
  rw [hiff]
  constructor
  · intro hne is his i hi
    obtain ⟨inst, hinst, rfl⟩ := List.mem_map.mp his
    have hget := List.getElem?_eq_getElem (hrec.count.symm ▸ hi)
    exact spansOf_ne_nil.mp fun hnil =>
      (hne i _ hget).1 inst hinst (congrArg _ hnil)
  · intro hmarks i t ht
    have hi : i < src.tabstops.length :=
      hrec.count ▸ (List.getElem?_eq_some_iff.mp ht).1
    have hne : ∀ inst ∈ instances, inst.rangesOf i ≠ [] := by
      intro inst hinst hnil
      have hmark := hmarks _ (List.mem_map_of_mem hinst) i hi
      exact spansOf_ne_nil.mpr hmark (List.map_eq_nil_iff.mp hnil)
    refine ⟨hne, fun direction primary hlt => selection_ok ?_ hlt direction⟩
    rw [hrec.tabstops i t ht, hrec.ranges, List.length_map]
    exact length_flatMap_ge hne

/-- `${TM_FILENAME:$1}` -/
def fileNameOrTabstop : Snippet where
  elements :=
    [.variable "TM_FILENAME".toList (some [.tabstop 0]) none, .tabstop 1]
  tabstops :=
    [⟨0, none, .placeholder []⟩, ⟨lastTabstopIdx, none, .empty⟩]

/-- One column a char, and no transforms. -/
def plainEnvironment : Environment where
  prefixColumn := fun pre _ => pre.length
  tabWidthAt := fun visualX tabWidth => tabWidth - visualX % tabWidth
  applyTransform := fun _ val => val

/-- A resolver that has a value for all variables, or for none. -/
def constantCtx (val : Option Tendril) : SnippetRenderCtx Unit where
  resolveVar := fun vars _ => (val, vars)
  tabWidth := 4
  indentStyle := .tabs
  lineEnding := ['\n']

/-- A cursor in the only line of a document, with the file name unknown. -/
theorem rendering_law_unresolved :
    ∃ tx newSelection snippet newDoc instances,
      fileNameOrTabstop.render plainEnvironment (constantCtx none) true
          ['a', 'b'] (Selection.point 1) (fun r => (r.start, r.stop)) ()
        = .ok (tx, newSelection, snippet, ())
      ∧ tx.apply ['a', 'b'] = .ok (true, newDoc)
      ∧ Recorded fileNameOrTabstop newDoc instances snippet := by
  obtain ⟨newDoc, instances, happly, -, -, hrec, -⟩ :=
    rendering_law fileNameOrTabstop plainEnvironment (constantCtx none) true
      ['a', 'b'] (Selection.point 1) (fun r => (r.start, r.stop)) () () _ _ _
      rfl
  exact ⟨_, _, _, newDoc, instances, rfl, happly, hrec⟩

/-- Where the file name is known the first tabstop is nowhere, and there
is no selection to start from. -/
theorem not_rendering_law_resolved :
    ∃ tx newSelection snippet,
      Snippet.new (fun _ => true) [.variable "TM_FILENAME".toList
          (some [.tabstop 1 none]) none] = .ok fileNameOrTabstop
      ∧ fileNameOrTabstop.render plainEnvironment (constantCtx (some ['f']))
          true [] (Selection.point 0) (fun r => (r.start, r.stop)) ()
        = .ok (tx, newSelection, snippet, ())
      ∧ ¬ (∀ t ∈ snippet.tabstops,
          snippet.ranges.length ≤ t.ranges.length)
      ∧ snippet.firstSelection .forward 0 = .error .assertion := by
  refine ⟨_, _, _, ?_, rfl, by decide, rfl⟩
  have hsort : fixupTabstops [⟨0, none, .placeholder []⟩]
      = [⟨0, none, .placeholder []⟩] := by
    unfold fixupTabstops
    rw [List.mergeSort_singleton]
    rfl
  show (Snippet.ensureLastTabstop ⟨[.variable "TM_FILENAME".toList
    (some [.tabstop 0]) none], fixupTabstops
      [⟨0, none, .placeholder []⟩]⟩).renumberTabstops = _
  rw [hsort]
  rfl

end Zmax.Snippets
