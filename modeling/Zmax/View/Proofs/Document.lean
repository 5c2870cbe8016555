/-
What the steps of a document do: one lemma for each function, which the
invariants are derived from.

An edit that carries the text to another leaves everything but the text
and what follows it as it was (`applyImpl_spec`), and the selections and
scroll positions stay within the text.
-/
import Zmax.Core.Proofs.Revisions
import Zmax.Core.Proofs.Selection
import Zmax.View.Document

namespace Zmax

open Script

variable {U : Unicode}

namespace ChangeSet

/-- A position within the old text is mapped into the new one. -/
theorem mapPos_ok {c : ChangeSet} {t u : Rope} (hwf : c.WellFormed)
    (hc : c.Carries t u) {pos : Nat} (h : pos ≤ t.length) (assoc : Assoc) :
    ∃ new, mapPos U c pos assoc = .ok new ∧ new ≤ u.length := by
  have hle : ∀ x ∈ [(pos, assoc)], x.1 ≤ oldLen c.changes := by
    intro x hx
    rw [List.mem_singleton] at hx
    rw [hx, hwf.old, hc.len]
    exact h
  obtain ⟨out, hout, hlen, hnew⟩ := @updatePositions_le U c _ hle
  rw [hwf.new, hc.lenAfter] at hnew
  obtain ⟨new, rfl⟩ := List.length_eq_one_iff.mp hlen
  refine ⟨new, ?_, hnew new List.mem_cons_self⟩
  unfold mapPos
  rw [hout]
  rfl

end ChangeSet

namespace Document

variable {doc doc' : Document} {tx : Transaction} {v : ViewId}

/-- A mapped selection is within the new text. -/
theorem mapSelection_within {changes : ChangeSet} {text : Rope}
    {s s' : Selection} (h : mapSelection U changes text s = .ok s') :
    s'.Within text.length := by
  obtain ⟨t, -, h⟩ := bind_eq_ok.mp h
  exact Selection.ensureInvariants_within h

/-- A selection within the old text can be mapped. -/
theorem mapSelection_ok {changes : ChangeSet} {t u : Rope}
    (hc : changes.Carries t u) {s : Selection} (h : s.Within t.length) :
    ∃ s', mapSelection U changes u s = .ok s' := by
  obtain ⟨s', hs', hwithin⟩ := @Selection.map_ok U s changes t u hc h
  obtain ⟨s'', hs''⟩ := @Selection.ensureInvariants_ok U s' u hwithin
  refine ⟨s'', ?_⟩
  unfold mapSelection
  rw [hs', ok_bind, hs'']

theorem mapOffset_within {changes : ChangeSet} {t u : Rope}
    (hwf : changes.WellFormed) (hc : changes.Carries t u)
    {p p' : ViewPosition} (h : p.anchor ≤ t.length)
    (hx : mapOffset U changes p = .ok p') : p'.anchor ≤ u.length := by
  obtain ⟨new, hnew, hle⟩ := @ChangeSet.mapPos_ok U _ _ _ hwf hc _ h .before
  unfold mapOffset at hx
  rw [hnew, ok_bind] at hx
  injection hx with hx
  subst hx
  exact hle

-- == editing

/-- Every view that had a selection has one. -/
def Keeps (doc doc' : Document) : Prop :=
  ∀ w, (doc.selections.get w).isSome → (doc'.selections.get w).isSome

theorem takeSelection_spec (hx : doc.takeSelection U tx v = .ok doc') :
    ∃ selections, doc' = { doc with selections := selections }
      ∧ (doc.selections.All (·.Within doc.text.length) →
          selections.All (·.Within doc.text.length))
      ∧ doc.Keeps doc' := by
  unfold takeSelection at hx
  split at hx
  · injection hx with hx
    subst hx
    exact ⟨doc.selections, rfl, fun h => h, fun w h => h⟩
  · obtain ⟨selection, hs, hx⟩ := bind_eq_ok.mp hx
    injection hx with hx
    subst hx
    refine ⟨_, rfl, fun h => h.insert ?_, fun w => Table.isSome_get_insert⟩
    exact Selection.ensureInvariants_within hs

/-- An edit that carries the text to another applies; the text, the
selections, the scroll positions and the savepoints change, and nothing
else. -/
theorem applyImpl_spec {text : Rope} (hc : tx.Carries doc.text text)
    {b : Bool} (hx : doc.applyImpl U tx v = .ok (b, doc')) :
    b = true ∧ (∃ selections viewData savepoints, doc' = { doc with
        text := text
        selections := selections
        viewData := viewData
        savepoints := savepoints })
      ∧ (doc.selections.All (·.Within doc.text.length) →
          doc'.selections.All (·.Within text.length))
      ∧ (doc.viewData.All (·.anchor ≤ doc.text.length) →
          doc'.viewData.All (·.anchor ≤ text.length))
      ∧ doc.Keeps doc' := by
  unfold applyImpl at hx
  dsimp only at hx
  rw [ChangeSet.Carries.apply hc, ok_bind] at hx
  dsimp only at hx
  rw [if_neg (by decide)] at hx
  by_cases he : tx.changes.isEmpty
  · -- the text stays, and at most the selection of the view is replaced
    rw [if_pos he] at hx
    obtain ⟨d, hd, hx⟩ := bind_eq_ok.mp hx
    injection hx with hx
    injection hx with hb hdoc
    subst hb hdoc
    obtain ⟨selections, rfl, hwithin, hkeeps⟩ := takeSelection_spec hd
    rw [ChangeSet.Carries.unchanged hc he]
    exact ⟨rfl, ⟨_, _, _, rfl⟩, hwithin, fun h => h, hkeeps⟩
  rw [if_neg he] at hx
  obtain ⟨selections, hsel, hx⟩ := bind_eq_ok.mp hx
  obtain ⟨viewData, hview, hx⟩ := bind_eq_ok.mp hx
  obtain ⟨savepoints, -, hx⟩ := bind_eq_ok.mp hx
  obtain ⟨d, hd, hx⟩ := bind_eq_ok.mp hx
  injection hx with hx
  injection hx with hb hdoc
  subst hb hdoc
  obtain ⟨selections', rfl, hwithin, hkeeps⟩ := takeSelection_spec hd
  have hmapped : doc.selections.All (·.Within doc.text.length) →
      selections.All (·.Within text.length) :=
    fun h => h.mapValues (fun _ _ _ hs => mapSelection_within hs) hsel
  refine ⟨rfl, ⟨_, _, _, rfl⟩, fun h => hwithin (hmapped h), ?_, ?_⟩
  · exact fun h => h.mapValues
      (fun _ _ hp => mapOffset_within (ChangeSet.Carries.wellFormed hc he) hc hp)
      hview
  · intro w hw
    refine hkeeps w ?_
    rw [← Table.isSome_get_mapValues hsel] at hw
    exact hw

/-- The stored state is the one before the first pending change. -/
theorem storeOldState_spec (hx : doc.storeOldState tx v = .ok doc') :
    ∃ oldState, doc' = { doc with oldState := oldState } ∧
      (if tx.changes.isEmpty then oldState = doc.oldState
        else if doc.changes.isEmpty then
          ∃ selection, doc.selections.get v = some selection
            ∧ oldState = some ⟨doc.text, selection⟩
        else oldState = doc.oldState) := by
  unfold storeOldState at hx
  split at hx
  · next hcond =>
      simp only [Bool.and_eq_true, Bool.not_eq_true'] at hcond
      obtain ⟨s, hs, hx⟩ := bind_eq_ok.mp hx
      injection hx with hx
      unfold selection at hs
      split at hs
      · next s' hget =>
          injection hs with hs
          subst hs
          refine ⟨_, hx.symm, ?_⟩
          rw [hcond.1, hcond.2]
          exact ⟨s', hget, rfl⟩
      · cases hs
  · next hcond =>
      injection hx with hx
      refine ⟨doc.oldState, hx.symm, ?_⟩
      split
      · rfl
      · next he =>
          rw [if_neg (fun hpend => hcond (by simp [hpend, he]))]

/-- An edit that carries the text to another, through `apply`: refused,
or applied with the changes composed and, where nothing was pending, the
state before them stored. -/
theorem apply_spec {text : Rope} (hc : tx.Carries doc.text text) {b : Bool}
    (hx : doc.apply U tx v = .ok (b, doc')) :
    (doc.refusesChange tx = true ∧ doc' = doc) ∨
    ∃ selections viewData savepoints oldState changes, doc' = { doc with
        text := text
        selections := selections
        viewData := viewData
        savepoints := savepoints
        oldState := oldState
        changes := changes }
      ∧ (doc.selections.All (·.Within doc.text.length) →
          selections.All (·.Within text.length))
      ∧ (doc.viewData.All (·.anchor ≤ doc.text.length) →
          viewData.All (·.anchor ≤ text.length))
      ∧ doc.Keeps doc'
      ∧ (if tx.changes.isEmpty then
          oldState = doc.oldState ∧ changes = doc.changes
        else doc.changes.compose tx.changes = .ok changes ∧
          if doc.changes.isEmpty then
            ∃ selection, doc.selections.get v = some selection
              ∧ oldState = some ⟨doc.text, selection⟩
          else oldState = doc.oldState) := by
  unfold apply at hx
  split at hx
  · next hrefuses =>
      injection hx with hx
      injection hx with _ hx
      exact .inl ⟨hrefuses, hx.symm⟩
  right
  unfold applyInner at hx
  obtain ⟨d, hd, hx⟩ := bind_eq_ok.mp hx
  obtain ⟨⟨success, d'⟩, hd', hx⟩ := bind_eq_ok.mp hx
  obtain ⟨oldState, rfl, hold⟩ := storeOldState_spec hd
  have hc' : tx.Carries { doc with oldState := oldState }.text text := hc
  obtain ⟨-, ⟨selections, viewData, savepoints, rfl⟩, hwithin, hview, hkeeps⟩ :=
    applyImpl_spec hc' hd'
  dsimp only at hx
  by_cases he : tx.changes.isEmpty
  · rw [if_pos he] at hx hold
    injection hx with hx
    injection hx with _ hx
    subst hx
    exact ⟨_, _, _, _, _, rfl, hwithin, hview, hkeeps,
      by rw [if_pos he]; exact ⟨hold, rfl⟩⟩
  · rw [if_neg he] at hx hold
    obtain ⟨changes, hcomp, hx⟩ := bind_eq_ok.mp hx
    injection hx with hx
    injection hx with _ hx
    subst hx
    exact ⟨_, _, _, _, _, rfl, hwithin, hview, hkeeps,
      by rw [if_neg he]; exact ⟨hcomp, hold⟩⟩

/-- Selecting changes the selections and their walks, and leaves the
selections within the text. -/
theorem setSelection_spec {selection : Selection}
    (hx : doc.setSelection U v selection = .ok doc') :
    ∃ s, selection.ensureInvariants U doc.text = .ok s ∧
      doc'.selections = doc.selections.insert v s ∧
      doc' = { doc with
        selections := doc'.selections
        selectionHistory := doc'.selectionHistory } ∧
      (doc'.selectionHistory = doc.selectionHistory ∨
        ∃ previous, doc'.selectionHistory = doc.selectionHistory.insert v
          (((doc.selectionHistory.get v).getD .default).record previous)) := by
  unfold setSelection at hx
  obtain ⟨s, hs, hx⟩ := bind_eq_ok.mp hx
  injection hx with hx
  subst hx
  refine ⟨s, hs, rfl, rfl, ?_⟩
  dsimp only
  split
  · exact .inl rfl
  · split
    · exact .inl rfl
    · exact .inr ⟨_, rfl⟩

end Document

end Zmax
