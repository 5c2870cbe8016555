/-
What `apply_file_diff` makes of a file, for a parsed diff of it.

The hunks are applied from the last to the first, and every time all lines
lose a `\r` at their end: in a file that is applied to at all, no `\r` at
the end of a line is left (`crSum`). A text that has become empty has lost
its trailing newline.
-/
import Mathlib.Logic.Function.Iterate
import Zmax.Core.Proofs.DiffParse

namespace Zmax.Diffmode

open Text Merge
open Unified hiding Line Hunk

-- == texts

variable {ls : List Line} {l : Line} {t : Rope} {above : Nat}
  {hs : List Unified.Hunk} {kept : List Unified.Line}

theorem unlines_eq (hne : ls ≠ []) : unlines ls = joinLines ls ++ ['\n'] := by
  induction ls with
  | nil => exact absurd rfl hne
  | cons l ls ih =>
      cases ls with
      | nil => simp [unlines, joinLines]
      | cons l' ls =>
          rw [unlines, List.flatMap_cons, ← unlines, ih (by simp)]
          simp [joinLines, List.intercalate_cons_cons]

theorem toLines_unlines (h : ∀ l ∈ ls, '\n' ∉ l) :
    toLines (unlines ls) = (ls.map stripCr, decide (ls ≠ [])) := by
  unfold toLines
  rw [lines_unlines h]
  cases ls with
  | nil => rfl
  | cons l ls => simp [unlines_getLast?]

theorem fromLines_true (ls : List Line) : fromLines ls true = unlines ls := by
  unfold fromLines
  split
  · rename_i h
    rw [h]
    rfl
  · rename_i h
    rw [unlines_eq h]
    rfl

theorem stripCr_no_newline (h : '\n' ∉ l) : '\n' ∉ stripCr l := by
  unfold stripCr
  split
  · exact fun hmem => h ((List.dropLast_sublist l).subset hmem)
  · exact h

-- == images

theorem stripCr_cons {c : Char} (hc : c ≠ '\r') (l : Line) :
    stripCr (c :: l) = c :: stripCr l :=
  stripCr_append [c] l (by simpa using hc)

/-- The lines of an entry whose line has its newline. -/
theorem entry_images {e : Entry} (h : e.line.newline = true) :
    let ls := (e.written.map stripCr).map fun l => DiffLine.mk (classifyBody l) l
    oldImg ls = (texts e.old).map stripCr ∧
      newImg ls = (texts e.new).map stripCr := by
  have hnote : e.line.note = [] := if_pos h
  have hminus := @stripCr_cons '-' (by decide) e.line.text
  have hplus := @stripCr_cons '+' (by decide) e.line.text
  have hspace := @stripCr_cons ' ' (by decide) e.line.text
  cases e with
  | context line bare =>
      simp only [Entry.line] at hnote hspace
      simp only [Entry.written, hnote]
      split
      · rename_i hbare
        simp only [Entry.old, Entry.new, texts_cons, texts_nil, hbare.2]
        exact ⟨rfl, rfl⟩
      · simp only [List.map_cons, List.map_nil, hspace]
        exact ⟨rfl, rfl⟩
  | delete line =>
      simp only [Entry.line] at hnote hminus
      simp only [Entry.written, hnote, List.map_cons, List.map_nil, hminus]
      exact ⟨rfl, rfl⟩
  | insert line =>
      simp only [Entry.line] at hnote hplus
      simp only [Entry.written, hnote, List.map_cons, List.map_nil, hplus]
      exact ⟨rfl, rfl⟩

/-- What a side of a hunk looks like in the parsed one. -/
def image (side : List Unified.Line) : List Line := (texts side).map stripCr

theorem readHunk_images {h : Unified.Hunk}
    (hnl : ∀ e ∈ h.body, e.line.newline = true) (o n : Nat) :
    oldImg (readHunk h o n).lines = image (oldSide h.body) ∧
      newImg (readHunk h o n).lines = image (newSide h.body) := by
  change oldImg (((h.body.flatMap _).map stripCr).map _) = _ ∧
    newImg (((h.body.flatMap _).map stripCr).map _) = _
  generalize h.body = body at hnl
  induction body with
  | nil => exact ⟨rfl, rfl⟩
  | cons e body ih =>
      obtain ⟨he, hbody⟩ := List.forall_mem_cons.mp hnl
      obtain ⟨hold, hnew⟩ := ih hbody
      obtain ⟨heold, henew⟩ := entry_images he
      simp only [oldImg, newImg, image] at hold hnew heold henew ⊢
      simp only [List.flatMap_cons, List.map_append, List.flatMap_append,
        oldSide_cons, newSide_cons, texts_append, hold, hnew, heold, henew]
      exact ⟨trivial, trivial⟩

-- == one hunk

theorem matchesAt_append (pre old post : List Line) :
    matchesAt (pre ++ old ++ post) old pre.length = true := by
  simp [matchesAt]

/-- A hunk whose place the header tells is put there. -/
theorem applyHunk_at {target : Rope} {hunk : Hunk} {pre post : List Line}
    (htarget : toLines target =
      (pre ++ oldImg hunk.lines ++ post, true))
    (hstart : hunk.oldStart = start pre.length (oldImg hunk.lines).length) :
    applyHunk target hunk =
      .ok (unlines (pre ++ newImg hunk.lines ++ post)) := by
  unfold applyHunk
  rw [htarget]
  simp only
  generalize oldImg hunk.lines = old at hstart
  by_cases hold : old = []
  · subst hold
    rw [if_pos rfl, hstart, fromLines_true]
    simp [splice, start]
  · have hlen : old.length ≠ 0 := fun heq =>
      hold (List.length_eq_zero_iff.mp heq)
    have hwant : hunk.oldStart - 1 = pre.length := by
      simp [hstart, start, hlen]
    rw [if_neg hold, hwant, if_pos (matchesAt_append pre old post)]
    simp [splice, fromLines_true]

/-- Wherever a hunk is put, its old lines are what it replaces. -/
theorem applyHunk_ok {target : Rope} {hunk : Hunk}
    (h : applyHunk target hunk = .ok t) :
    ∃ pre post, (toLines target).1 = pre ++ oldImg hunk.lines ++ post ∧
      t = fromLines (pre ++ newImg hunk.lines ++ post) (toLines target).2 := by
  unfold applyHunk at h
  generalize toLines target = x at h ⊢
  obtain ⟨tlines, nl⟩ := x
  simp only at h ⊢
  have hmatch : ∀ p, matchesAt tlines (oldImg hunk.lines) p = true →
      tlines = tlines.take p ++ oldImg hunk.lines ++
        tlines.drop (p + (oldImg hunk.lines).length) := by
    intro p hp
    simp only [matchesAt, decide_eq_true_eq] at hp
    obtain ⟨-, heq⟩ := hp
    calc tlines = tlines.take p ++ tlines.drop p := by simp
      _ = tlines.take p ++ ((tlines.drop p).take (oldImg hunk.lines).length ++
            (tlines.drop p).drop (oldImg hunk.lines).length) := by
          rw [List.take_append_drop (oldImg hunk.lines).length]
      _ = _ := by rw [heq, List.drop_drop, List.append_assoc]
  by_cases hold : oldImg hunk.lines = []
  · rw [if_pos hold] at h
    obtain rfl := Except.ok.inj h
    exact ⟨_, _, by simp [hold], rfl⟩
  · rw [if_neg hold] at h
    split at h
    · rename_i p hpos
      obtain rfl := Except.ok.inj h
      refine ⟨_, _, hmatch p ?_, rfl⟩
      split at hpos
      · obtain rfl := Option.some.inj hpos
        assumption
      · exact List.find?_some hpos
    · cases h

-- == the good run

/-- With so many lines above, the text is empty when some hunk is to be
applied. -/
def Emptied (above : Nat) (kept : List Unified.Line)
    (hs : List Unified.Hunk) : Prop :=
  ∃ pre suf, hs = pre ++ suf ∧ pre ≠ [] ∧
    above + (oldFrom [] pre).length + (newFrom kept suf).length = 0

theorem emptied_cons {h : Unified.Hunk} :
    Emptied above kept (h :: hs) ↔
      above + h.kept.length + (oldSide h.body).length +
          (newFrom kept hs).length = 0 ∨
        Emptied (above + h.kept.length + (oldSide h.body).length) kept hs := by
  constructor
  · rintro ⟨pre, suf, heq, hne, hlen⟩
    cases pre with
    | nil => exact absurd rfl hne
    | cons x pre =>
        rw [List.cons_append] at heq
        injection heq with hx heq
        subst hx heq
        simp only [oldFrom, List.length_append] at hlen
        cases pre with
        | nil =>
            refine .inl ?_
            simp only [List.nil_append]
            omega
        | cons y pre =>
            refine .inr ⟨y :: pre, suf, rfl, by simp, ?_⟩
            omega
  · rintro (hlen | ⟨pre, suf, rfl, -, hlen⟩)
    · refine ⟨[h], hs, rfl, by simp, ?_⟩
      simp only [oldFrom, List.length_append, List.length_nil]
      omega
    · refine ⟨h :: pre, suf, rfl, by simp, ?_⟩
      simp only [oldFrom, List.length_append]
      omega

theorem emptied_nil (above : Nat) (kept : List Unified.Line) :
    ¬ Emptied above kept [] := by
  rintro ⟨pre, suf, heq, hne, -⟩
  exact hne (List.append_eq_nil_iff.mp heq.symm).1

theorem stripCr_of (h : l.getLast? ≠ some '\r') : stripCr l = l :=
  if_neg h

theorem map_stripCr_of (h : ∀ l ∈ ls, l.getLast? ≠ some '\r') :
    ls.map stripCr = ls := by
  rw [List.map_congr_left fun l hl => stripCr_of (h l hl), List.map_id']

theorem iterate_no_newline (h : '\n' ∉ l) (k : Nat) :
    '\n' ∉ stripCr^[k] l := by
  induction k with
  | zero => exact h
  | succ k ih =>
      rw [Function.iterate_succ_apply']
      exact stripCr_no_newline ih

/-- The hunks are put in their places, the last one first. -/
theorem run_good {kept : List Unified.Line} {hs : List Unified.Hunk}
    (hnl : ∀ h ∈ hs, ∀ e ∈ h.body, e.line.newline = true)
    {P : List Line} {n : Nat} (hemptied : ¬ Emptied P.length kept hs)
    (hclean : ∀ l ∈ P ++ texts (oldFrom kept hs), '\n' ∉ l)
    (hcleanNew : ∀ l ∈ texts (newFrom kept hs), '\n' ∉ l)
    (hcr : ∀ l ∈ texts (newFrom kept hs), l.getLast? ≠ some '\r')
    (hlost : ∀ h ∈ hs.dropLast, ∀ l ∈ texts (oldSide h.body),
      (stripCr l).getLast? ≠ some '\r') :
    applyHunks (unlines (P ++ texts (oldFrom kept hs)))
        (readFrom P.length n hs) =
      .ok (unlines
        (P.map (stripCr^[hs.length]) ++ texts (newFrom kept hs))) := by
  induction hs generalizing P n with
  | nil =>
      simp [oldFrom, newFrom, readFrom, applyHunks]
  | cons h hs ih =>
      obtain ⟨hnlh, hnlhs⟩ := List.forall_mem_cons.mp hnl
      rw [emptied_cons, not_or] at hemptied
      obtain ⟨hsome, hemptied⟩ := hemptied
      simp only [oldFrom, newFrom, texts_append, List.append_assoc,
        List.forall_mem_append] at hclean hcleanNew hcr
      obtain ⟨hcleanP, hcleanKept, hcleanOld, hcleanFrom⟩ := hclean
      obtain ⟨-, hcleanNewSide, hcleanNew⟩ := hcleanNew
      obtain ⟨hcrKept, hcrSide, hcrNew⟩ := hcr
      have hlen : (P ++ texts h.kept ++ texts (oldSide h.body)).length =
          P.length + h.kept.length + (oldSide h.body).length := by
        simp only [List.length_append, length_texts]
      have hrun := @ih hnlhs (P ++ texts h.kept ++ texts (oldSide h.body))
        (n + h.kept.length + (newSide h.body).length)
        (by rw [hlen]; exact hemptied)
        (by
          simp only [List.append_assoc, List.forall_mem_append]
          exact ⟨hcleanP, hcleanKept, hcleanOld, hcleanFrom⟩)
        hcleanNew hcrNew
        (fun x hx => hlost x (by
          cases hs with
          | nil => cases hx
          | cons y hs => exact List.mem_cons_of_mem _ hx))
      obtain ⟨hold, hnew⟩ := readHunk_images hnlh (P.length + h.kept.length)
        (n + h.kept.length)
      -- the old lines look as they did when the hunk was parsed
      have hside : (texts (oldSide h.body)).map stripCr^[hs.length + 1] =
          image (oldSide h.body) := by
        refine List.map_congr_left fun l hl => ?_
        rw [Function.iterate_succ_apply]
        cases hs with
        | nil => rfl
        | cons y hs =>
            exact Function.iterate_fixed
              (stripCr_of (hlost h List.mem_cons_self l hl)) _
      have hkept : (texts h.kept).map stripCr^[hs.length + 1] =
          texts h.kept := by
        conv_rhs => rw [← List.map_id (texts h.kept)]
        exact List.map_congr_left fun l hl =>
          Function.iterate_fixed (stripCr_of (hcrKept l hl)) _
      have htlines : toLines (unlines
          ((P ++ texts h.kept ++ texts (oldSide h.body)).map
            (stripCr^[hs.length]) ++ texts (newFrom kept hs))) =
          (P.map (stripCr^[hs.length + 1]) ++ texts h.kept ++
            image (oldSide h.body) ++ texts (newFrom kept hs), true) := by
        rw [toLines_unlines]
        · refine Prod.ext ?_ (decide_eq_true ?_)
          · rw [List.map_append, map_stripCr_of hcrNew, List.map_map,
              ← Function.iterate_succ', List.map_append, List.map_append,
              hside, hkept]
          · intro hnil
            have := congrArg List.length hnil
            simp only [List.length_append, List.length_map, length_texts,
              List.length_nil] at this
            omega
        · intro l hl
          rcases List.mem_append.mp hl with hl | hl
          · obtain ⟨l', hl', rfl⟩ := List.mem_map.mp hl
            refine iterate_no_newline ?_ _
            rcases List.mem_append.mp hl' with hl' | hl'
            · rcases List.mem_append.mp hl' with hl' | hl'
              · exact hcleanP l' hl'
              · exact hcleanKept l' hl'
            · exact hcleanOld l' hl'
          · exact hcleanNew l hl
      have happly := @applyHunk_at _ (readHunk h (P.length + h.kept.length)
        (n + h.kept.length)) (P.map (stripCr^[hs.length + 1]) ++ texts h.kept)
        (texts (newFrom kept hs)) (by rw [hold]; exact htlines)
        (by
          rw [hold]
          simp [readHunk, image])
      have htext : P ++ texts (oldFrom kept (h :: hs)) =
          P ++ texts h.kept ++ texts (oldSide h.body) ++
            texts (oldFrom kept hs) := by
        simp only [oldFrom, texts_append, List.append_assoc]
      rw [hlen] at hrun
      rw [readFrom, applyHunks, htext, hrun]
      change applyHunk _ _ = _
      rw [happly, hnew, image, map_stripCr_of hcrSide, newFrom]
      simp only [texts_append, List.append_assoc, List.length_cons]

-- == every run

/-- How many `\r` there are at the ends of lines, one line having several
of them perhaps. -/
def crSum (ls : List Line) : Nat :=
  (ls.flatMap fun l => l.rtakeWhile (· = '\r')).length

@[simp] theorem crSum_nil : crSum [] = 0 := rfl

@[simp] theorem crSum_append (xs ys : List Line) :
    crSum (xs ++ ys) = crSum xs + crSum ys := by
  simp [crSum]

theorem crSum_cons (l : Line) (ls : List Line) :
    crSum (l :: ls) = (l.rtakeWhile (· = '\r')).length + crSum ls := by
  simp [crSum]

theorem crSum_eq_zero : crSum ls = 0 ↔ ∀ l ∈ ls, l.getLast? ≠ some '\r' := by
  unfold crSum
  rw [List.length_eq_zero_iff, List.flatMap_eq_nil_iff]
  refine forall₂_congr fun l _ => ?_
  cases l using List.reverseRecOn with
  | nil => simp
  | append_singleton l c =>
      rw [List.rtakeWhile_concat]
      simp

theorem stripCr_tail (l : Line) :
    ((stripCr l).rtakeWhile (· = '\r')).length =
      (l.rtakeWhile (· = '\r')).length - 1 := by
  unfold stripCr
  cases l using List.reverseRecOn with
  | nil => rfl
  | append_singleton l c =>
      rw [List.rtakeWhile_concat]
      by_cases hc : c = '\r'
      · simp [hc]
      · simp [hc]

/-- Splitting a text into lines takes them away, and it does so until none is
left. -/
theorem crSum_stripCr (ls : List Line) :
    crSum (ls.map stripCr) ≤ crSum ls ∧
      (crSum ls ≤ crSum (ls.map stripCr) → crSum ls = 0) := by
  induction ls with
  | nil => simp
  | cons l ls ih =>
      obtain ⟨hle, heq⟩ := ih
      rw [List.map_cons, crSum_cons, crSum_cons, stripCr_tail]
      refine ⟨by omega, fun h => ?_⟩
      have := heq (by omega)
      omega

theorem image_no_newline {body : List Entry}
    (h : ∀ e ∈ body, '\n' ∉ e.line.text) :
    ∀ l ∈ image (newSide body), '\n' ∉ l := by
  intro l hl
  obtain ⟨l', hl', rfl⟩ := List.mem_map.mp hl
  obtain ⟨line, hline, rfl⟩ := List.mem_map.mp hl'
  obtain ⟨e, he, hline⟩ := List.mem_flatMap.mp hline
  refine stripCr_no_newline ?_
  have := h e he
  cases e with
  | context line' bare => rwa [List.mem_singleton.mp hline]
  | delete line' => cases hline
  | insert line' => rwa [List.mem_singleton.mp hline]

/-- What the hunks remove, and what they add. -/
def images (side : Unified.Hunk → List Unified.Line)
    (hs : List Unified.Hunk) : List Line :=
  hs.flatMap fun h => image (side h)

/-- However the hunks find their places: the lines are as many as they
should be, and the `\r` at their ends do not become more. If they do not
become less either there are none from the first hunk on. -/
theorem run_ok (hnl : ∀ h ∈ hs, ∀ e ∈ h.body, e.line.newline = true)
    (hclean : ∀ h ∈ hs, ∀ e ∈ h.body, '\n' ∉ e.line.text) {A : List Line}
    (hA : ∀ l ∈ A, '\n' ∉ l) {o n : Nat}
    (hlen : A.length = above + (oldFrom kept hs).length)
    (hemptied : ¬ Emptied above kept hs)
    (h : applyHunks (unlines A) (readFrom o n hs) = .ok t) :
    ∃ X, t = unlines X ∧ (∀ l ∈ X, '\n' ∉ l) ∧
      X.length = above + (newFrom kept hs).length ∧
      crSum (X.map stripCr) + crSum (images (fun h => oldSide h.body) hs) ≤
        crSum (A.map stripCr) + crSum (images (fun h => newSide h.body) hs) ∧
      (crSum (A.map stripCr) + crSum (images (fun h => newSide h.body) hs) ≤
        crSum (X.map stripCr) + crSum (images (fun h => oldSide h.body) hs) →
        (hs ≠ [] → crSum X = 0) ∧
          crSum (images (fun h => oldSide h.body) hs.dropLast) = 0) := by
  induction hs generalizing above o n t with
  | nil =>
      refine ⟨A, (Except.ok.inj h).symm, hA, hlen, Nat.le_refl _, fun _ => ?_⟩
      exact ⟨fun hne => absurd rfl hne, rfl⟩
  | cons hunk hs ih =>
      obtain ⟨hnlh, hnlhs⟩ := List.forall_mem_cons.mp hnl
      obtain ⟨hcleanh, hcleanhs⟩ := List.forall_mem_cons.mp hclean
      rw [emptied_cons, not_or] at hemptied
      obtain ⟨hsome, hemptied⟩ := hemptied
      rw [readFrom, applyHunks] at h
      obtain ⟨t₁, hrun, happly⟩ := bind_eq_ok.mp h
      simp only [oldFrom, List.length_append] at hlen
      have hlenA : A.length = above + hunk.kept.length +
          (oldSide hunk.body).length + (oldFrom kept hs).length := by omega
      obtain ⟨X₁, rfl, hclean₁, hlen₁, hle₁, heq₁⟩ :=
        ih hnlhs hcleanhs hlenA hemptied hrun
      obtain ⟨pre, post, hlines, rfl⟩ := applyHunk_ok happly
      obtain ⟨hold, hnew⟩ := readHunk_images hnlh (o + hunk.kept.length)
        (n + hunk.kept.length)
      rw [toLines_unlines hclean₁] at hlines
      simp only [hold] at hlines
      have hne : X₁ ≠ [] := by
        intro hnil
        rw [hnil, List.length_nil] at hlen₁
        omega
      have hX := congrArg crSum hlines
      have hlenX := congrArg List.length hlines
      simp only [crSum_append, List.length_append, List.length_map, image,
        length_texts] at hX hlenX
      obtain ⟨hstrip, hstop⟩ := crSum_stripCr (pre ++
        image (newSide hunk.body) ++ post)
      obtain ⟨hstrip₁, hstop₁⟩ := crSum_stripCr X₁
      refine ⟨pre ++ image (newSide hunk.body) ++ post, ?_, ?_, ?_, ?_, ?_⟩
      · rw [toLines_unlines hclean₁, decide_eq_true hne, fromLines_true, hnew]
      · have hclean₂ : ∀ l ∈ X₁.map stripCr, '\n' ∉ l := by
          intro l hl
          obtain ⟨l', hl', rfl⟩ := List.mem_map.mp hl
          exact stripCr_no_newline (hclean₁ l' hl')
        rw [hlines] at hclean₂
        simp only [List.forall_mem_append] at hclean₂ ⊢
        exact ⟨⟨hclean₂.1.1, image_no_newline hcleanh⟩, hclean₂.2⟩
      · simp only [newFrom, List.length_append, image, List.length_map,
          length_texts]
        omega
      · simp only [images, List.flatMap_cons, crSum_append, image] at *
        omega
      · intro hge
        simp only [images, List.flatMap_cons, crSum_append, image] at *
        obtain ⟨hzero₁, hdrop₁⟩ := heq₁ (by omega)
        have hzero := hstop (by omega)
        refine ⟨fun _ => hzero, ?_⟩
        cases hs with
        | nil => rfl
        | cons y hs =>
            have := hzero₁ (by simp)
            simp only [List.dropLast_cons_cons, List.flatMap_cons, crSum_append]
            omega

-- == the lost newline

theorem count_unlines (h : ∀ l ∈ ls, '\n' ∉ l) :
    (unlines ls).count '\n' = ls.length := by
  induction ls with
  | nil => rfl
  | cons l ls ih =>
      obtain ⟨hl, hls⟩ := List.forall_mem_cons.mp h
      rw [unlines, List.flatMap_cons, ← unlines, List.count_append, ih hls,
        List.count_append, List.count_eq_zero.mpr hl]
      simp
      omega

theorem count_joinLines (h : ∀ l ∈ ls, '\n' ∉ l) (hne : ls ≠ []) :
    (joinLines ls).count '\n' + 1 = ls.length := by
  have hcount := count_unlines h
  rw [unlines_eq hne, List.count_append] at hcount
  exact hcount

theorem toLines_append {last : Line} (h : ∀ l ∈ ls, '\n' ∉ l)
    (hlast : '\n' ∉ last) (hne : last ≠ []) :
    toLines (unlines ls ++ last) = (ls.map stripCr ++ [last], false) := by
  unfold toLines
  rw [lines_unlines_append h hlast, if_neg hne,
    List.getLast?_append_of_ne_nil _ hne]
  refine Prod.ext rfl (decide_eq_false fun heq => ?_)
  exact hlast (List.mem_of_getLast? heq)

/-- Lines put into a text bring their newlines, but in an empty text one is
missing. -/
theorem applyHunk_count {target : Rope} {hunk : Hunk}
    (hold : oldImg hunk.lines = []) (hne : newImg hunk.lines ≠ [])
    (hclean : ∀ l ∈ newImg hunk.lines, '\n' ∉ l)
    (h : applyHunk target hunk = .ok t) :
    t.count '\n' + (if target = [] then 1 else 0) ≤
      target.count '\n' + (newImg hunk.lines).length := by
  obtain ⟨pre, post, hlines, rfl⟩ := applyHunk_ok h
  obtain ⟨ls, last, rfl, hls, hlast⟩ := exists_unlines target
  have hstrip : ∀ l ∈ ls.map stripCr, '\n' ∉ l := by
    intro l hl
    obtain ⟨l', hl', rfl⟩ := List.mem_map.mp hl
    exact stripCr_no_newline (hls l' hl')
  have hsome : pre ++ newImg hunk.lines ++ post ≠ [] := by simp [hne]
  have hall : (∀ l ∈ pre ++ post, '\n' ∉ l) →
      ∀ l ∈ pre ++ newImg hunk.lines ++ post, '\n' ∉ l := by
    intro hboth
    simp only [List.forall_mem_append] at hboth ⊢
    exact ⟨⟨hboth.1, hclean⟩, hboth.2⟩
  rw [hold, List.append_nil] at hlines
  by_cases hnil : last = []
  · subst hnil
    rw [List.append_nil, toLines_unlines hls] at hlines ⊢
    simp only at hlines ⊢
    rw [hlines] at hstrip
    have hlen := congrArg List.length hlines
    simp only [List.length_map, List.length_append] at hlen
    rw [count_unlines hls]
    cases ls with
    | nil =>
        have hcount := count_joinLines (hall hstrip) hsome
        simp only [List.length_append] at hcount
        simp only [List.length_nil] at hlen
        simp only [fromLines, if_neg hsome, ne_eq, not_true_eq_false,
          decide_false, Bool.false_eq_true, if_false, List.append_nil]
        rw [if_pos (by rfl)]
        omega
    | cons l ls =>
        rw [decide_eq_true (by simp), fromLines_true,
          count_unlines (hall hstrip), if_neg]
        · simp only [List.length_append]
          omega
        · intro heq
          have := congrArg (List.count '\n') heq
          rw [count_unlines hls] at this
          simp at this
  · rw [toLines_append hls hlast hnil] at hlines ⊢
    simp only at hlines ⊢
    have hlen := congrArg List.length hlines
    simp only [List.length_map, List.length_append, List.length_singleton]
      at hlen
    have hboth : ∀ l ∈ pre ++ post, '\n' ∉ l := by
      rw [← hlines]
      simp only [List.forall_mem_append, List.forall_mem_singleton]
      exact ⟨hstrip, hlast⟩
    have hcount := count_joinLines (hall hboth) hsome
    simp only [List.length_append] at hcount
    simp only [fromLines, if_neg hsome, Bool.false_eq_true, if_false,
      List.append_nil]
    rw [if_neg (by simp [hnil]), List.count_append, count_unlines hls]
    omega


/-- A text that has become empty does not end with a newline any more. -/
theorem run_lost (hnl : ∀ h ∈ hs, ∀ e ∈ h.body, e.line.newline = true)
    (hclean : ∀ h ∈ hs, ∀ e ∈ h.body, '\n' ∉ e.line.text)
    (hchange : ∀ h ∈ hs, h.WellFormed) {A : List Line}
    (hA : ∀ l ∈ A, '\n' ∉ l) {o n : Nat}
    (hlen : A.length = above + (oldFrom kept hs).length)
    (hemptied : Emptied above kept hs)
    (h : applyHunks (unlines A) (readFrom o n hs) = .ok t) :
    t.count '\n' < above + (newFrom kept hs).length := by
  induction hs generalizing above o n t with
  | nil => exact absurd hemptied (emptied_nil above kept)
  | cons hunk hs ih =>
      obtain ⟨hnlh, hnlhs⟩ := List.forall_mem_cons.mp hnl
      obtain ⟨hcleanh, hcleanhs⟩ := List.forall_mem_cons.mp hclean
      obtain ⟨hchangeh, hchangehs⟩ := List.forall_mem_cons.mp hchange
      rw [readFrom, applyHunks] at h
      obtain ⟨t₁, hrun, happly⟩ := bind_eq_ok.mp h
      simp only [oldFrom, List.length_append] at hlen
      have hlen₁ : A.length = above + hunk.kept.length +
          (oldSide hunk.body).length + (oldFrom kept hs).length := by omega
      obtain ⟨hold, hnew⟩ := readHunk_images hnlh (o + hunk.kept.length)
        (n + hunk.kept.length)
      -- nothing is above, and nothing is removed
      have hempty : above + hunk.kept.length +
          (oldSide hunk.body).length = 0 := by
        rcases emptied_cons.mp hemptied with hzero | ⟨_, _, _, _, hzero⟩
        · omega
        · omega
      have hside : oldSide hunk.body = [] :=
        List.length_eq_zero_iff.mp (by omega)
      have hadded : newSide hunk.body ≠ [] := by
        obtain ⟨e, he, -⟩ := hchangeh.change
        rcases mem_sides he with hmem | hmem
        · rw [hside] at hmem
          cases hmem
        · exact List.ne_nil_of_mem hmem
      have hcount := applyHunk_count (by rw [hold, hside]; rfl)
        (by simpa [hnew, image, texts] using hadded)
        (by rw [hnew]; exact image_no_newline hcleanh) happly
      rw [hnew, image, List.length_map, length_texts] at hcount
      simp only [newFrom, List.length_append]
      by_cases htail : Emptied (above + hunk.kept.length +
          (oldSide hunk.body).length) kept hs
      · have := ih hnlhs hcleanhs hchangehs hlen₁ htail hrun
        omega
      · obtain ⟨X, rfl, -, hlenX, -⟩ :=
          run_ok hnlhs hcleanhs hA hlen₁ htail hrun
        have hzero := (emptied_cons.mp hemptied).resolve_right htail
        obtain rfl : X = [] := List.length_eq_zero_iff.mp (by omega)
        rw [if_pos (by rfl)] at hcount
        simp only [unlines, List.flatMap_nil, List.count_nil] at hcount
        omega

-- == the result

theorem mem_of_newline {p : Patch} (hold : ∀ line ∈ p.old, line.newline = true)
    (hnew : ∀ line ∈ p.new, line.newline = true) :
    ∀ h ∈ p.hunks, ∀ e ∈ h.body, e.line.newline = true := by
  intro h hh e he
  rcases mem_sides he with hmem | hmem
  · exact hold _ (mem_oldFrom hh hmem)
  · exact hnew _ (mem_newFrom hh hmem)

theorem unlines_inj {xs ys : List Line} (hxs : ∀ l ∈ xs, '\n' ∉ l)
    (hys : ∀ l ∈ ys, '\n' ∉ l) (h : unlines xs = unlines ys) : xs = ys := by
  have hsplit := congrArg (List.splitOn '\n') h
  rw [splitOn_unlines hxs, splitOn_unlines hys] at hsplit
  exact List.append_cancel_right hsplit

/-- The two files differ by what the hunks remove and add. -/
theorem crSum_images (kept : List Unified.Line) (hs : List Unified.Hunk) :
    crSum (image (oldFrom kept hs)) +
        crSum (images (fun h => newSide h.body) hs) =
      crSum (image (newFrom kept hs)) +
        crSum (images (fun h => oldSide h.body) hs) := by
  induction hs with
  | nil => rfl
  | cons h hs ih =>
      simp only [images, oldFrom, newFrom, List.flatMap_cons, image,
        texts_append, List.map_append, crSum_append] at *
      omega

theorem crSum_side {side : Unified.Hunk → List Unified.Line} :
    crSum (images side hs) = 0 ↔
      ∀ h ∈ hs, ∀ line ∈ side h, (stripCr line.text).getLast? ≠ some '\r' := by
  rw [crSum_eq_zero]
  simp only [images, image, texts, List.forall_mem_flatMap, List.forall_mem_map]

/-- A diff of a text to another, both empty or ending with a newline, is
parsed to one file whose hunks make the one of the other, if and only if none
of its hunks holds what could be file headers, no line of the new text ends
with `\r` and none of the old text in a hunk but the last one with two of
them, and no hunk finds the text empty. -/
theorem apply_diff_law {chrome : List (List Char)} {old new : List Char}
    {p : Patch} (hhead : IsHead chrome old new) (hp : p.WellFormed)
    (hheads : ∀ h ∈ p.hunks, h.head = [])
    (hold : ∀ line ∈ p.old, line.newline = true)
    (hnew : ∀ line ∈ p.new, line.newline = true)
    (hfitsOld : p.old.length ≤ USIZE_MAX)
    (hfitsNew : p.new.length ≤ USIZE_MAX) :
    (∃ file, (parse (unlines (headLines chrome old new ++ p.lines))).files =
          [file] ∧
        applyFileDiff (unlines (texts p.old)) file =
          .ok (unlines (texts p.new))) ↔
      (∀ h ∈ p.hunks, ¬ LooksLikeFiles (h.body.flatMap Entry.written)) ∧
        (p.hunks = [] ∨
          (∀ line ∈ p.new, line.text.getLast? ≠ some '\r') ∧
            ∀ h ∈ p.hunks.dropLast, ∀ line ∈ oldSide h.body,
              (stripCr line.text).getLast? ≠ some '\r') ∧
        ¬ Emptied 0 p.kept p.hunks := by
  have hnl := mem_of_newline hold hnew
  have hcleanOld := hp.old.texts
  have hcleanNew := hp.new.texts
  have hlen : (texts p.old).length = 0 + (oldFrom p.kept p.hunks).length := by
    rw [length_texts, Nat.zero_add]
    rfl
  constructor
  · rintro ⟨file, hfile, happly⟩
    have hclash : ∀ h ∈ p.hunks,
        ¬ LooksLikeFiles (h.body.flatMap Entry.written) := by
      by_contra hlooks
      push Not at hlooks
      have := parse_clash hhead hp hheads hlooks
      rw [hfile, List.length_singleton] at this
      omega
    rw [parse_written hhead hp hheads hclash hfitsOld hfitsNew] at hfile
    obtain rfl := (List.singleton_inj.mp hfile).symm
    have hemptied : ¬ Emptied 0 p.kept p.hunks := by
      intro hempty
      have := run_lost hnl hp.text hp.hunks hcleanOld hlen hempty happly
      rw [count_unlines hcleanNew, length_texts, Patch.new] at this
      omega
    obtain ⟨X, heq, hclean, -, -, hzero⟩ :=
      run_ok hnl hp.text hcleanOld hlen hemptied happly
    obtain rfl := unlines_inj hcleanNew hclean heq
    obtain ⟨hcr, hdrop⟩ := hzero
      (Nat.le_of_eq (crSum_images p.kept p.hunks))
    refine ⟨hclash, ?_, hemptied⟩
    by_cases hhunks : p.hunks = []
    · exact .inl hhunks
    · refine .inr ⟨?_, crSum_side.mp hdrop⟩
      have := crSum_eq_zero.mp (hcr hhunks)
      simpa only [texts, List.forall_mem_map] using this
  · rintro ⟨hclash, hcr, hemptied⟩
    refine ⟨_, parse_written hhead hp hheads hclash hfitsOld hfitsNew, ?_⟩
    rcases hcr with hnone | ⟨hcr, hlost⟩
    · simp [applyFileDiff, hnone, readFrom, applyHunks, Patch.old, Patch.new,
        oldFrom, newFrom]
    · exact run_good (P := []) hnl hemptied hcleanOld hcleanNew
        (List.forall_mem_map.mpr hcr)
        (fun h hh => List.forall_mem_map.mpr (hlost h hh))

/-- A diff that adds a line below so many others. -/
def addLine (kept : List Unified.Line) : Patch where
  hunks := [{
    head := []
    kept := kept
    body := [.insert ⟨['z'], true⟩]
    terseOld := false
    terseNew := false
    heading := [] }]
  kept := []

theorem addLine_wellFormed
    (h : ∀ line ∈ kept, '\n' ∉ line.text ∧ line.newline = true) :
    (addLine kept).WellFormed where
  hunks := by
    intro x hx
    rw [List.mem_singleton.mp hx]
    exact ⟨by simp, List.not_mem_nil, .insert ⟨['z'], true⟩, by simp, trivial⟩
  old := by
    have heq : (addLine kept).old = kept := by
      simp [addLine, Patch.old, oldFrom]
    rw [heq]
    exact ⟨fun line hline => (h line hline).1, fun line hline =>
      (h line ((List.dropLast_sublist _).subset hline)).2⟩
  new := by
    have heq : (addLine kept).new = kept ++ [⟨['z'], true⟩] := by
      simp [addLine, Patch.new, newFrom]
    rw [heq]
    refine ⟨?_, ?_⟩
    · rw [List.forall_mem_append]
      exact ⟨fun line hline => (h line hline).1, by simp⟩
    · rw [List.dropLast_concat]
      exact fun line hline => (h line hline).2

theorem sampleHead : IsHead ["diff --git a/f b/f".toList] "a/f".toList
    "b/f".toList where
  lines := by
    rw [List.forall_mem_singleton]
    exact ⟨⟨'d', _, rfl, .inl (by decide)⟩, by decide⟩
  files := ⟨by decide, by decide⟩
  banner := by decide

/-- There is a line above the added one. -/
theorem apply_diff_law_below :
    ∃ file, (parse (unlines (headLines ["diff --git a/f b/f".toList]
        "a/f".toList "b/f".toList ++
          (addLine [⟨['x'], true⟩]).lines))).files = [file] ∧
      applyFileDiff ['x', '\n'] file = .ok ['x', '\n', 'z', '\n'] :=
  (apply_diff_law (p := addLine [⟨['x'], true⟩]) sampleHead
    (addLine_wellFormed (by simp)) (by simp [addLine])
    (by simp [addLine, Patch.old, oldFrom])
    (by simp [addLine, Patch.new, newFrom]) (by decide) (by decide)).mpr
    ⟨by
      simp only [addLine, List.forall_mem_singleton]
      rw [← pair_mem_items]
      simp [Entry.written, Unified.Line.note, items],
    .inr ⟨by simp [addLine, Patch.new, newFrom], by simp [addLine]⟩,
    by simp [addLine, emptied_cons, emptied_nil]⟩

/-- The line is added to an empty text. -/
theorem not_apply_diff_law_empty :
    ¬ ∀ (chrome : List (List Char)) (old new : List Char) (p : Patch),
      IsHead chrome old new → p.WellFormed → (∀ h ∈ p.hunks, h.head = []) →
      (∀ line ∈ p.old, line.newline = true) →
      (∀ line ∈ p.new, line.newline = true) →
      ∃ file,
        (parse (unlines (headLines chrome old new ++ p.lines))).files =
            [file] ∧
          applyFileDiff (unlines (texts p.old)) file =
            .ok (unlines (texts p.new)) := by
  intro h
  obtain ⟨file, hfile, happly⟩ := h _ _ _ (addLine []) sampleHead
    (addLine_wellFormed (by simp)) (by simp [addLine])
    (by simp [addLine, Patch.old, oldFrom])
    (by simp [addLine, Patch.new, newFrom])
  have hparsed : (parse (unlines (headLines ["diff --git a/f b/f".toList]
      "a/f".toList "b/f".toList ++ (addLine []).lines))).files =
        [⟨['f'], ['f'], [⟨0, 0, 1, 1, "@@ -0,0 +1,1 @@".toList,
          [⟨.added, ['+', 'z']⟩]⟩]⟩] := by decide
  rw [hparsed] at hfile
  obtain rfl := (List.singleton_inj.mp hfile).symm
  revert happly
  decide

end Zmax.Diffmode
