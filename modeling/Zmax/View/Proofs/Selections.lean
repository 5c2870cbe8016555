/-
The laws of a document's selections over whole runs.

Live selections follow every edit, but the walks that `undoSelection`
and `redoSelection` take them back to do not. `Selectable` is the
invariant: live selections are within the text, and every walk stands
between its entries. What a step restores is only within the text if the
entry is (`Restoring`). Walking back and forth again restores the
document in any case (`walk_back_forth`).
-/
import Zmax.Core.Proofs.Timeline
import Zmax.View.Proofs.Document
import Zmax.View.Session

namespace Zmax

open Reach

variable {U : Unicode}

namespace Document

variable {doc doc' : Document} {v : ViewId}

/-- Every walk stands between its entries, and belongs to a view with a
selection. -/
def Walkable (doc : Document) : Prop :=
  ∀ w history, doc.selectionHistory.get w = some history →
    history.index ≤ history.entries.length
      ∧ (doc.selections.get w).isSome

/-- The invariant of the runs. -/
structure Selectable (doc : Document) : Prop where
  within : doc.selections.All (·.Within doc.text.length)
  walkable : doc.Walkable

-- == one step

/-- There is something to undo exactly if the walk is past its first
entry. -/
theorem undoSelection_spec (hw : doc.Walkable) (h : 0 < doc.undoDepth v) :
    ∃ history current restored,
      doc.selectionHistory.get v = some history
      ∧ doc.selections.get v = some current
      ∧ history.entries[history.index - 1]? = some restored
      ∧ doc.undoSelection v = .ok (true, { doc with
          selectionHistory := doc.selectionHistory.insert v
            ⟨history.entries.set (history.index - 1) current,
              history.index - 1⟩
          selections := doc.selections.insert v restored }) := by
  unfold undoDepth at h
  unfold undoSelection
  cases hget : doc.selectionHistory.get v with
  | none =>
      rw [hget] at h
      exact absurd h (Nat.lt_irrefl 0)
  | some history =>
      rw [hget, Option.getD_some] at h
      obtain ⟨hle, hsome⟩ := hw v history hget
      obtain ⟨current, hcurrent⟩ := Option.isSome_iff_exists.mp hsome
      have hlt : history.index - 1 < history.entries.length := by omega
      have hentry := List.getElem?_eq_getElem hlt
      refine ⟨history, current, _, rfl, hcurrent, hentry, ?_⟩
      dsimp only
      rw [if_neg (by omega), hcurrent]
      dsimp only
      rw [index_eq_ok.mpr hentry]
      rfl

/-- With nothing to undo the document stays. -/
theorem undoSelection_zero (h : doc.undoDepth v = 0) :
    doc.undoSelection v = .ok (false, doc) := by
  unfold undoDepth at h
  unfold undoSelection
  cases hget : doc.selectionHistory.get v with
  | none => rfl
  | some history =>
      rw [hget, Option.getD_some] at h
      exact if_pos h

/-- There is something to redo exactly if the walk has entries left. -/
theorem redoSelection_spec (hw : doc.Walkable) (h : 0 < doc.redoDepth v) :
    ∃ history current restored,
      doc.selectionHistory.get v = some history
      ∧ doc.selections.get v = some current
      ∧ history.entries[history.index]? = some restored
      ∧ doc.redoSelection v = .ok (true, { doc with
          selectionHistory := doc.selectionHistory.insert v
            ⟨history.entries.set history.index current, history.index + 1⟩
          selections := doc.selections.insert v restored }) := by
  unfold redoDepth at h
  unfold redoSelection
  cases hget : doc.selectionHistory.get v with
  | none =>
      rw [hget] at h
      exact absurd h (Nat.lt_irrefl 0)
  | some history =>
      rw [hget, Option.getD_some] at h
      obtain ⟨current, hcurrent⟩ :=
        Option.isSome_iff_exists.mp (hw v history hget).2
      have hlt : history.index < history.entries.length :=
        Nat.lt_of_sub_pos h
      have hentry := List.getElem?_eq_getElem hlt
      refine ⟨history, current, _, rfl, hcurrent, hentry, ?_⟩
      dsimp only
      rw [if_neg (by omega), hcurrent]
      dsimp only
      rw [index_eq_ok.mpr hentry]
      rfl

theorem redoSelection_zero (h : doc.redoDepth v = 0) :
    doc.redoSelection v = .ok (false, doc) := by
  unfold redoDepth at h
  unfold redoSelection
  cases hget : doc.selectionHistory.get v with
  | none => rfl
  | some history =>
      rw [hget, Option.getD_some] at h
      exact if_pos (Nat.sub_eq_zero_iff_le.mp h)

/-- Another walk of the view, with a selection for it. -/
theorem Walkable.insert (hw : doc.Walkable) {history : SelectionHistory}
    (hle : history.index ≤ history.entries.length)
    {selections : Table ViewId Selection}
    (hkeep : ∀ w, (doc.selections.get w).isSome →
      (selections.get w).isSome) (hv : (selections.get v).isSome) :
    Walkable { doc with
      selectionHistory := doc.selectionHistory.insert v history
      selections := selections } := by
  intro w history' hget
  dsimp only at hget
  by_cases hwv : w = v
  · subst hwv
    rw [Table.get_insert_self] at hget
    injection hget with hget
    exact ⟨hget ▸ hle, hv⟩
  · rw [Table.get_insert_ne hwv] at hget
    obtain ⟨hle', hsome⟩ := hw w history' hget
    exact ⟨hle', hkeep w hsome⟩

variable {b : Bool} {step : Document → Result (Bool × Document)}

/-- The walk stands between its entries after any step back. -/
theorem Walkable.undoSelection (hw : doc.Walkable)
    (hx : doc.undoSelection v = .ok (b, doc')) : doc'.Walkable := by
  rcases Nat.eq_zero_or_pos (doc.undoDepth v) with h0 | hpos
  · rw [undoSelection_zero h0] at hx
    injection hx with hx
    injection hx with _ hx
    exact hx ▸ hw
  · obtain ⟨history, current, restored, hget, -, -, hstep⟩ :=
      undoSelection_spec hw hpos
    rw [hstep] at hx
    injection hx with hx
    injection hx with _ hx
    subst hx
    refine hw.insert ?_ (fun w => Table.isSome_get_insert) ?_
    · have := (hw v history hget).1
      show history.index - 1 ≤ (history.entries.set _ _).length
      rw [List.length_set]
      omega
    · rw [Table.get_insert_self]
      rfl

theorem Walkable.redoSelection (hw : doc.Walkable)
    (hx : doc.redoSelection v = .ok (b, doc')) : doc'.Walkable := by
  rcases Nat.eq_zero_or_pos (doc.redoDepth v) with h0 | hpos
  · rw [redoSelection_zero h0] at hx
    injection hx with hx
    injection hx with _ hx
    exact hx ▸ hw
  · obtain ⟨history, current, restored, hget, -, hentry, hstep⟩ :=
      redoSelection_spec hw hpos
    rw [hstep] at hx
    injection hx with hx
    injection hx with _ hx
    subst hx
    refine hw.insert ?_ (fun w => Table.isSome_get_insert) ?_
    · have := (List.getElem?_eq_some_iff.mp hentry).1
      show history.index + 1 ≤ (history.entries.set _ _).length
      rw [List.length_set]
      omega
    · rw [Table.get_insert_self]
      rfl

/-- A step back, and one forward, is no step. -/
theorem redoSelection_undoSelection (hw : doc.Walkable)
    (hpos : 0 < doc.undoDepth v)
    (hx : doc.undoSelection v = .ok (true, doc')) :
    doc'.redoSelection v = .ok (true, doc) := by
  obtain ⟨history, current, restored, hget, hcurrent, hentry, hstep⟩ :=
    undoSelection_spec hw hpos
  have hidx : 0 < history.index := by
    unfold undoDepth at hpos
    rw [hget] at hpos
    exact hpos
  obtain ⟨hlt, hrestored⟩ := List.getElem?_eq_some_iff.mp hentry
  rw [hstep] at hx
  injection hx with hx
  injection hx with _ hx
  subst hx
  unfold Document.redoSelection
  dsimp only
  rw [Table.get_insert_self]
  dsimp only
  rw [List.length_set, if_neg (by omega), Table.get_insert_self]
  dsimp only
  rw [index_eq_ok.mpr (List.getElem?_set_self hlt)]
  -- the entry and the selection are swapped back
  have hentries : (history.entries.set (history.index - 1) current).set
      (history.index - 1) restored = history.entries := by
    rw [List.set_set, ← hrestored, List.set_getElem_self]
  rw [ok_bind, Table.insert_insert, Table.insert_insert, hentries,
    Nat.sub_add_cancel hidx, Table.insert_get hcurrent,
    Table.insert_get hget]
  rfl

-- == walks

theorem walk_succ (h : step doc = .ok (b, doc')) (n : Nat) :
    walk step (n + 1) doc = walk step n doc' := by
  rw [walk, h]
  rfl

/-- Steps that do nothing. -/
theorem walk_same (h : step doc = .ok (b, doc)) :
    ∀ n, walk step n doc = .ok doc := by
  intro n
  induction n with
  | zero => rfl
  | succ n ih => rw [walk_succ h, ih]

theorem walk_add (m n : Nat) :
    ∀ {doc doc' : Document}, walk step m doc = .ok doc' →
      walk step (m + n) doc = walk step n doc' := by
  induction m with
  | zero =>
      intro doc doc' h
      injection h with h
      rw [h, Nat.zero_add]
  | succ m ih =>
      intro doc doc' h
      rw [walk] at h
      obtain ⟨⟨b, d⟩, hd, h⟩ := bind_eq_ok.mp h
      rw [Nat.add_right_comm, walk_succ hd]
      exact ih h

/-- As many steps forward as there were back end where they started. -/
theorem walk_back_forth : ∀ {n : Nat} {doc : Document}, doc.Walkable →
    n ≤ doc.undoDepth v →
    ∃ doc', walk (·.undoSelection v) n doc = .ok doc'
      ∧ walk (·.redoSelection v) n doc' = .ok doc
      ∧ doc'.undoDepth v = doc.undoDepth v - n := by
  intro n
  induction n with
  | zero =>
      intro doc _ _
      exact ⟨doc, rfl, rfl, rfl⟩
  | succ n ih =>
      intro doc hw hn
      have hpos : 0 < doc.undoDepth v := by omega
      obtain ⟨history, current, restored, hget, -, -, hstep⟩ :=
        undoSelection_spec hw hpos
      have hback := redoSelection_undoSelection hw hpos hstep
      have hw' := hw.undoSelection hstep
      generalize hd : { doc with
        selectionHistory := doc.selectionHistory.insert v
          ⟨history.entries.set (history.index - 1) current,
            history.index - 1⟩
        selections := doc.selections.insert v restored } = d
        at hstep hback hw'
      have hdepth : d.undoDepth v = doc.undoDepth v - 1 := by
        unfold undoDepth
        rw [← hd, Table.get_insert_self, hget]
        rfl
      obtain ⟨doc', hundo, hredo, hdepth'⟩ := ih hw' (by omega)
      refine ⟨doc', ?_, ?_, by omega⟩
      · rw [walk_succ hstep, hundo]
      · rw [walk_add n 1 hredo, walk_succ hback]
        rfl

-- == runs

/-- The runs: edits are made for the text. -/
def Picks (doc : Document) : Pick → Prop
  | .apply _ transaction => Timeline.Fits transaction doc.text
  | _ => True

/-- The entry that a step back would restore. -/
def older (doc : Document) (viewId : ViewId) : Option Selection :=
  let history := (doc.selectionHistory.get viewId).getD .default
  if history.index = 0 then none else history.entries[history.index - 1]?

/-- The entry that a step forward would restore. -/
def newer (doc : Document) (viewId : ViewId) : Option Selection :=
  let history := (doc.selectionHistory.get viewId).getD .default
  history.entries[history.index]?

/-- What a step back or forward restores is within the text. -/
def Restoring (doc : Document) : Pick → Prop
  | .undoSelection viewId =>
      ∀ s ∈ doc.older viewId, s.Within doc.text.length
  | .redoSelection viewId =>
      ∀ s ∈ doc.newer viewId, s.Within doc.text.length
  | _ => True

/-- Every stored selection is within the text; and so many steps back,
and as many forward, restore the document, if that many can be taken
back, or if none could be taken forward before. -/
structure SelectionLaw (doc : Document) : Prop where
  within : doc.selections.All (·.Within doc.text.length)
  restore : ∀ v n, n ≤ doc.undoDepth v ∨ doc.redoDepth v = 0 →
    ∃ doc', walk (·.undoSelection v) n doc = .ok doc'
      ∧ walk (·.redoSelection v) n doc' = .ok doc

theorem Selectable.law (h : doc.Selectable) : doc.SelectionLaw := by
  refine ⟨h.within, fun v n hn => ?_⟩
  rcases Nat.le_total n (doc.undoDepth v) with hle | hge
  · obtain ⟨doc', hundo, hredo, -⟩ := walk_back_forth h.walkable hle
    exact ⟨doc', hundo, hredo⟩
  · -- more steps than there are: the others do nothing
    have hzero : doc.redoDepth v = 0 ∨ n = doc.undoDepth v := by omega
    obtain ⟨doc', hundo, hredo, hdepth⟩ :=
      @walk_back_forth v (doc.undoDepth v) doc h.walkable (Nat.le_refl _)
    rcases hzero with hzero | rfl
    · obtain ⟨k, rfl⟩ := Nat.exists_eq_add_of_le hge
      refine ⟨doc', ?_, ?_⟩
      · rw [walk_add _ k hundo]
        exact walk_same (undoSelection_zero (by omega)) k
      · rw [walk_add _ k hredo]
        exact walk_same (redoSelection_zero hzero) k
    · exact ⟨doc', hundo, hredo⟩

/-- A step that restores nothing outside the text keeps the
invariant. -/
theorem Selectable.pick (h : doc.Selectable) {a : Pick}
    (hpicks : doc.Picks a) (hrestoring : doc.Restoring a)
    (hx : doc.pick U a = .ok doc') : doc'.Selectable := by
  cases a with
  | setSelection v selection =>
      obtain ⟨s, hs, hsel, heq, hwalks⟩ := setSelection_spec hx
      have hkeep : ∀ w, (doc.selections.get w).isSome →
          (doc'.selections.get w).isSome := by
        rw [hsel]
        exact fun w => Table.isSome_get_insert
      refine ⟨?_, ?_⟩
      · have hins := h.within.insert (k := v)
          (Selection.ensureInvariants_within hs)
        rw [← hsel] at hins
        rw [heq]
        exact hins
      · rcases hwalks with hsame | ⟨previous, hins⟩
        · intro w history hget
          rw [hsame] at hget
          obtain ⟨hle, hsome⟩ := h.walkable w history hget
          exact ⟨hle, hkeep w hsome⟩
        · have hv : (doc'.selections.get v).isSome := by
            rw [hsel, Table.get_insert_self]
            rfl
          have hwalk := @Walkable.insert doc v h.walkable
            (((doc.selectionHistory.get v).getD .default).record previous)
            (Nat.le_refl _) doc'.selections hkeep hv
          rw [← hins] at hwalk
          rw [heq]
          exact hwalk
  | apply v tx =>
      obtain ⟨⟨b, d⟩, hd, hx⟩ := bind_eq_ok.mp hx
      injection hx with hx
      subst hx
      have hfits : Timeline.Fits tx doc.text := hpicks
      obtain ⟨text, -, hc, -⟩ := hfits.edges
      rcases apply_spec hc hd with ⟨-, rfl⟩ | ⟨selections, viewData,
        savepoints, oldState, changes, rfl, hwithin, -, hkeeps, -⟩
      · exact h
      · refine ⟨hwithin h.within, fun w history hget => ?_⟩
        obtain ⟨hle, hsome⟩ := h.walkable w history hget
        exact ⟨hle, hkeeps w hsome⟩
  | undoSelection v =>
      obtain ⟨⟨b, d⟩, hd, hx⟩ := bind_eq_ok.mp hx
      injection hx with hx
      subst hx
      refine ⟨?_, h.walkable.undoSelection hd⟩
      rcases Nat.eq_zero_or_pos (doc.undoDepth v) with h0 | hpos
      · rw [undoSelection_zero h0] at hd
        injection hd with hd
        injection hd with _ hd
        exact hd ▸ h.within
      · obtain ⟨history, current, restored, hget, -, hentry, hstep⟩ :=
          undoSelection_spec h.walkable hpos
        have hidx : 0 < history.index := by
          unfold undoDepth at hpos
          rw [hget] at hpos
          exact hpos
        have holder : doc.older v = some restored := by
          unfold older
          rw [hget]
          exact (if_neg (Nat.ne_of_gt hidx)).trans hentry
        rw [hstep] at hd
        injection hd with hd
        injection hd with _ hd
        subst hd
        exact h.within.insert (hrestoring restored holder)
  | redoSelection v =>
      obtain ⟨⟨b, d⟩, hd, hx⟩ := bind_eq_ok.mp hx
      injection hx with hx
      subst hx
      refine ⟨?_, h.walkable.redoSelection hd⟩
      rcases Nat.eq_zero_or_pos (doc.redoDepth v) with h0 | hpos
      · rw [redoSelection_zero h0] at hd
        injection hd with hd
        injection hd with _ hd
        exact hd ▸ h.within
      · obtain ⟨history, current, restored, hget, -, hentry, hstep⟩ :=
          redoSelection_spec h.walkable hpos
        have hnewer : doc.newer v = some restored := by
          unfold newer
          rw [hget]
          exact hentry
        rw [hstep] at hd
        injection hd with hd
        injection hd with _ hd
        subst hd
        exact h.within.insert (hrestoring restored hnewer)

/-- From a document whose selections are within the text, in every run
that restores nothing outside it, the law of the selections holds. -/
theorem selection_law {start doc : Document}
    (hwithin : start.selections.All (·.Within start.text.length))
    (hnone : start.selectionHistory = [])
    (hs : Reaches (fun doc a => doc.Picks a ∧ doc.Restoring a) (pick U)
      start doc) : doc.SelectionLaw := by
  have hinv : doc.Selectable := by
    have hwalk : start.Walkable := by
      intro w history hget
      rw [hnone] at hget
      cases hget
    refine hs.invariant ⟨hwithin, hwalk⟩ ?_
    rintro doc a doc' h ⟨hpicks, hrestoring⟩ hx
    exact h.pick hpicks hrestoring hx
  exact hinv.law

/-- Where a step leads, if it does not fail. -/
def picked (doc : Document) (a : Pick) : Document :=
  match doc.pick .ascii a with
  | .ok doc' => doc'
  | .error _ => doc

/-- A text of two chars, in one view with the cursor at the start. -/
def opened : Document :=
  { ofText 0 ['a', 'b'] with selections := [(0, .point 0)] }

theorem within_opened :
    opened.selections.All (·.Within opened.text.length) := by
  show ∀ p ∈ [(0, Selection.point 0)], _
  decide

/-- The law after selecting the text and stepping back. -/
theorem selection_law_undo :
    ∃ doc : Document, doc.undoDepth 0 = 0 ∧ doc.redoDepth 0 = 1
      ∧ doc.SelectionLaw := by
  let selected := picked opened (.setSelection 0 (.single 0 2))
  have hselect : opened.pick .ascii (.setSelection 0 (.single 0 2))
      = .ok selected := by decide
  have hundo : selected.pick .ascii (.undoSelection 0)
      = .ok (picked selected (.undoSelection 0)) := by decide
  have holder : ∀ s ∈ selected.older 0, s.Within selected.text.length := by
    decide
  exact ⟨picked selected (.undoSelection 0), by decide,
    by decide, selection_law within_opened rfl
      (.step (.undoSelection 0)
        (.step (.setSelection 0 (.single 0 2)) .start ⟨trivial, trivial⟩
          hselect) ⟨trivial, holder⟩ hundo)⟩

/-- The whole text deleted. -/
def deleteAll (text : Rope) : Transaction :=
  .ofChanges (ChangeSet.withCapacity.delete text.length)

theorem fits_deleteAll : Timeline.Fits (deleteAll ['a', 'b']) ['a', 'b'] :=
  ⟨@ChangeSet.Obtainable.fromChanges ['a', 'b'] [(0, 2, none)] _
    (by decide), rfl⟩

/-- The cursor at the end and back at the start, the text deleted, and a
step back: the cursor is where there is no text. -/
theorem not_selection_law_delete :
    ∃ doc, Reaches Picks (pick .ascii) opened doc
      ∧ ¬ doc.SelectionLaw := by
  let atEnd := picked opened (.setSelection 0 (.point 2))
  let atStart := picked atEnd (.setSelection 0 (.point 0))
  let deleted := picked atStart (.apply 0 (deleteAll ['a', 'b']))
  have hend : opened.pick .ascii (.setSelection 0 (.point 2))
      = .ok atEnd := by decide
  have hstart : atEnd.pick .ascii (.setSelection 0 (.point 0))
      = .ok atStart := by decide
  have hdelete : atStart.pick .ascii (.apply 0 (deleteAll ['a', 'b']))
      = .ok deleted := by decide
  have hundo : deleted.pick .ascii (.undoSelection 0)
      = .ok (picked deleted (.undoSelection 0)) := by decide
  have hfits : Timeline.Fits (deleteAll ['a', 'b']) atStart.text :=
    fits_deleteAll
  refine ⟨picked deleted (.undoSelection 0),
    .step (.undoSelection 0)
      (.step (.apply 0 (deleteAll ['a', 'b']))
        (.step (.setSelection 0 (.point 0))
          (.step (.setSelection 0 (.point 2)) .start trivial hend)
          trivial hstart) hfits hdelete) trivial hundo, ?_⟩
  intro hlaw
  have hcursor : (picked deleted (.undoSelection 0)).selections.get 0
      = some (.point 2) := by
    decide
  have hwithin := hlaw.within.get hcursor
  exact absurd hwithin (by decide)

end Document

end Zmax
