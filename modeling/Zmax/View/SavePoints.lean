/-
zmax-view/src/document.rs: the savepoints of a document, taken and restored
while it is edited.

Every edit puts its inverse in front of the way back of each savepoint
(`mapSavepoints`). A snapshot is what a savepoint was taken of; it is a
ghost, and the invariant says that the way back leads to it (`Leads`).
-/
import Zmax.Lib.Reach
import Zmax.View.Editing
import Zmax.View.Proofs.Tracking

namespace Zmax

variable (U : Unicode)

namespace Document

/-- The one there is, if nothing has happened since it was taken, or a new
one; it is the last. -/
def savepoint (self : Document) (viewId : ViewId) : Result Document := do
  let selection ← self.selection viewId
  let revert := (Transaction.new self.text).withSelection selection
  let same := self.savepoints.getLast?.any fun savepoint =>
    savepoint.view == viewId && savepoint.revert.changes.isEmpty &&
      decide (savepoint.revert.selection = revert.selection)
  if same then return self
  return { self with savepoints := self.savepoints ++ [⟨viewId, revert⟩] }

/-- Restore the savepoint with this index, which becomes the last. -/
def restore (self : Document) (i : Nat) : Result Document := do
  let savepoint ← index self.savepoints i
  let doc := { self with savepoints := self.savepoints.eraseIdx i }
  let (_, doc) ← doc.applyInner U savepoint.revert savepoint.view
  let selection ← doc.selection savepoint.view
  let revert := (Transaction.new doc.text).withSelection selection
  return { doc with
    savepoints := doc.savepoints ++ [{ savepoint with revert := revert }] }

-- == snapshots

/-- What a savepoint was taken of. -/
structure Snapshot where
  view : ViewId
  text : Rope
  selection : Selection

/-- The savepoint is a way from the text back to the snapshot. -/
structure Leads (text : Rope) (savepoint : SavePoint) (snap : Snapshot) :
    Prop where
  view : savepoint.view = snap.view
  carries : savepoint.revert.Carries text snap.text
  selection : savepoint.revert.selection = some snap.selection
  within : snap.selection.Within snap.text.length

inductive Touch where
  | apply (viewId : ViewId) (transaction : Transaction)
  /-- What an undo, a redo or a jump applies. -/
  | handOut (viewId : ViewId) (transactions : List Transaction)
  | savepoint (viewId : ViewId)
  | restore (i : Nat)
  /-- The last reference to a savepoint is gone. -/
  | forget (i : Nat)

/-- The snapshot of a view. -/
def snapshot (self : Document) (viewId : ViewId) : Result Snapshot := do
  let selection ← self.selection viewId
  return ⟨viewId, self.text, selection⟩

/-- One step, and what it is to the snapshots. -/
def touch : Document × List Snapshot → Touch →
    Result (Document × List Snapshot)
  | (doc, snaps), .apply viewId transaction => do
      let (_, doc) ← doc.apply U transaction viewId
      return (doc, snaps)
  | (doc, snaps), .handOut viewId transactions => do
      let (success, doc) ← doc.applyEach U viewId transactions
      return (if success then { doc with changes := .new doc.text } else doc,
        snaps)
  | (doc, snaps), .savepoint viewId => do
      let snap ← doc.snapshot viewId
      let after ← doc.savepoint viewId
      return (after,
        if after.savepoints.length = doc.savepoints.length then snaps
        else snaps ++ [snap])
  | (doc, snaps), .restore i => do
      let snap ← index snaps i
      let doc ← doc.restore U i
      let restored ← doc.snapshot snap.view
      return (doc, snaps.eraseIdx i ++ [restored])
  | (doc, snaps), .forget i =>
      .ok ({ doc with savepoints := doc.savepoints.eraseIdx i },
        snaps.eraseIdx i)

-- == one edit

variable {U} {doc : Document} {tx : Transaction} {v : ViewId} {t u : Rope}
  {snaps : List Snapshot} {s : Selection}

theorem mapSavepoints_leads {sps : List SavePoint} (hc : tx.Carries t u)
    (he : ¬ tx.changes.isEmpty) (h : List.Forall₂ (Leads t) sps snaps) :
    ∃ sps', mapSavepoints tx t sps = .ok sps' ∧
      List.Forall₂ (Leads u) sps' snaps := by
  unfold mapSavepoints
  split
  case isTrue hnil =>
    obtain rfl := List.isEmpty_iff.mp hnil
    cases h
    exact ⟨[], rfl, .nil⟩
  case isFalse hsome =>
    obtain ⟨i, hi, hback⟩ := ChangeSet.Carries.invert hc
      (.inl fun hnil => he (by simp [ChangeSet.isEmpty, hnil]))
    have hrevert : tx.invert t = .ok ⟨i, none⟩ := by
      rw [Transaction.invert, hi]
      rfl
    rw [hrevert, ok_bind]
    clear hsome hrevert hi
    induction h with
    | nil => exact ⟨[], rfl, .nil⟩
    | @cons sp snap sps snaps hsp _ ih =>
        obtain ⟨sps', hsps', hall⟩ := ih
        obtain ⟨c, hcomp, hcarries⟩ := hback.compose hsp.carries
        refine ⟨{ sp with revert := ⟨c, sp.revert.selection⟩ } :: sps', ?_,
          .cons ⟨hsp.view, hcarries, hsp.selection, hsp.within⟩ hall⟩
        rw [List.mapM_cons, hsps', Transaction.compose, hcomp]
        rfl

/-- The selection that a transaction sets, made to fit the text. -/
def Sets (tx : Transaction) (v : ViewId) (doc : Document) : Prop :=
  ∀ s ∈ tx.selection, ∃ s', s.ensureInvariants U doc.text = .ok s' ∧
    doc.selections.get v = some s'

theorem takeSelection_sets (hs : ∀ s ∈ tx.selection, s.Within doc.text.length) :
    ∃ selections, doc.takeSelection U tx v =
        .ok { doc with selections := selections } ∧
      Sets (U := U) tx v { doc with selections := selections } := by
  unfold takeSelection Sets
  cases hsel : tx.selection with
  | none => exact ⟨doc.selections, rfl, nofun⟩
  | some s =>
      obtain ⟨s', hs'⟩ := @Selection.ensureInvariants_ok U s doc.text (hs s hsel)
      refine ⟨doc.selections.insert v s', ?_, fun r hr => ?_⟩
      · dsimp only
        rw [hs', ok_bind]
        rfl
      · obtain rfl := Option.some.inj hr
        exact ⟨s', hs', Table.get_insert_self⟩

/-- A transaction fits the text, and so does the selection that it sets. -/
def Fits (tx : Transaction) (t u : Rope) : Prop :=
  tx.Carries t u ∧ ∀ s ∈ tx.selection, s.Within u.length

/-- What the edits of a document keep. -/
structure Safe (doc : Document) (snaps : List Snapshot) : Prop where
  selections : doc.selections.All (·.Within doc.text.length)
  viewData : doc.viewData.All (·.anchor ≤ doc.text.length)
  viewed : ∀ s ∈ snaps, (doc.selections.get s.view).isSome
  leads : List.Forall₂ (Leads doc.text) doc.savepoints snaps

/-- An edit that fits is applied, and leads back to every snapshot. -/
theorem applyImpl_safe (hsafe : doc.Safe snaps) (htx : Fits tx doc.text u) :
    ∃ doc', doc.applyImpl U tx v = .ok (true, doc') ∧ doc'.Safe snaps ∧
      doc'.text = u ∧ doc'.changes = doc.changes ∧
      Sets (U := U) tx v doc' := by
  have hrun : ∃ doc', doc.applyImpl U tx v = .ok (true, doc') ∧
      List.Forall₂ (Leads u) doc'.savepoints snaps ∧
      Sets (U := U) tx v doc' := by
    unfold applyImpl
    dsimp only
    rw [ChangeSet.Carries.apply htx.1, ok_bind]
    dsimp only
    rw [if_neg (by decide)]
    by_cases he : tx.changes.isEmpty
    · rw [if_pos he]
      obtain ⟨selections, htake, hsets⟩ :=
        @takeSelection_sets U { doc with text := u } tx v htx.2
      rw [htake, ok_bind]
      have := ChangeSet.Carries.unchanged htx.1 he
      exact ⟨_, rfl, this ▸ hsafe.leads, hsets⟩
    · rw [if_neg he]
      obtain ⟨selections, hsel⟩ := hsafe.selections.mapValues_ok
        fun s hs => mapSelection_ok (U := U) htx.1 hs
      obtain ⟨viewData, hview⟩ := hsafe.viewData.mapValues_ok
        (f := mapOffset U tx.changes) fun p hp => by
          obtain ⟨new, hnew, -⟩ := ChangeSet.mapPos_ok (U := U)
            (ChangeSet.Carries.wellFormed htx.1 he) htx.1 hp .before
          exact ⟨{ p with anchor := new }, by rw [mapOffset, hnew]; rfl⟩
      obtain ⟨savepoints, hsaves, hleads⟩ :=
        mapSavepoints_leads htx.1 he hsafe.leads
      obtain ⟨selections', htake, hsets⟩ :=
        @takeSelection_sets U { doc with
          text := u
          selections := selections
          viewData := viewData
          savepoints := savepoints } tx v htx.2
      rw [hsel, ok_bind, hview, ok_bind, hsaves, ok_bind, htake, ok_bind]
      exact ⟨_, rfl, hleads, hsets⟩
  obtain ⟨doc', hx, hleads, hsets⟩ := hrun
  obtain ⟨-, ⟨_, _, _, rfl⟩, hsel, hview, hkeeps⟩ :=
    applyImpl_spec htx.1 hx
  exact ⟨_, hx, ⟨hsel hsafe.selections, hview hsafe.viewData,
    fun s hs => hkeeps _ (hsafe.viewed s hs), hleads⟩, rfl, rfl, hsets⟩

/-- The pending changes lead to the text. -/
def Pending (doc : Document) : Prop :=
  ∃ old, doc.changes.Carries old doc.text

theorem applyInner_safe (hsafe : doc.Safe snaps) (hpending : doc.Pending)
    (htx : Fits tx doc.text u) (hv : (doc.selections.get v).isSome) :
    ∃ doc', doc.applyInner U tx v = .ok (true, doc') ∧ doc'.Safe snaps ∧
      doc'.Pending ∧ doc'.text = u ∧ Sets (U := U) tx v doc' := by
  obtain ⟨s, hs⟩ := Option.isSome_iff_exists.mp hv
  obtain ⟨old, hold⟩ := hpending
  have hstore : ∃ state, doc.storeOldState tx v =
      .ok { doc with oldState := state } := by
    unfold storeOldState
    split
    · exact ⟨_, by rw [selection, hs]; rfl⟩
    · exact ⟨doc.oldState, rfl⟩
  obtain ⟨state, hstore⟩ := hstore
  obtain ⟨doc', hx, hsafe', htext, hchanges, hsets⟩ :=
    @applyImpl_safe U { doc with oldState := state } tx v _ _
      ⟨hsafe.selections, hsafe.viewData, hsafe.viewed, hsafe.leads⟩ htx
  rw [applyInner, hstore, ok_bind, hx, ok_bind]
  dsimp only
  by_cases he : tx.changes.isEmpty
  · rw [if_pos he]
    refine ⟨doc', rfl, hsafe', ⟨old, ?_⟩, htext, hsets⟩
    rw [hchanges, htext, ← ChangeSet.Carries.unchanged htx.1 he]
    exact hold
  · rw [if_neg he, hchanges]
    obtain ⟨c, hcomp, hcarries⟩ := hold.compose htx.1
    dsimp only
    rw [hcomp, ok_bind]
    exact ⟨_, rfl, ⟨hsafe'.selections, hsafe'.viewData, hsafe'.viewed,
      hsafe'.leads⟩, ⟨old, htext ▸ hcarries⟩, htext, hsets⟩

/-- Transactions that fit one after the other. -/
def FitAll : Rope → List Transaction → Prop
  | _, [] => True
  | t, tx :: rest => ∃ u, Fits tx t u ∧ FitAll u rest

theorem applyEach_safe {txs : List Transaction} (hsafe : doc.Safe snaps)
    (htxs : FitAll doc.text txs) :
    ∃ b doc', doc.applyEach U v txs = .ok (b, doc') ∧ doc'.Safe snaps ∧
      (b = false → doc' = doc) := by
  induction txs generalizing doc with
  | nil => exact ⟨false, doc, rfl, hsafe, fun _ => rfl⟩
  | cons tx rest ih =>
      obtain ⟨u, htx, hrest⟩ := htxs
      obtain ⟨mid, hmid, hsafe', rfl, -, -⟩ :=
        applyImpl_safe (U := U) (v := v) hsafe htx
      obtain ⟨b, doc', hdoc', hsafe'', -⟩ := ih hsafe' hrest
      refine ⟨true, doc', ?_, hsafe'', nofun⟩
      rw [applyEach, hmid, ok_bind]
      dsimp only
      rw [hdoc']
      rfl

-- == runs

theorem leads_at {R : SavePoint → Snapshot → Prop} {sps : List SavePoint}
    {snap : Snapshot} {i : Nat} (h : List.Forall₂ R sps snaps)
    (hi : snaps[i]? = some snap) : ∃ sp, sps[i]? = some sp ∧ R sp snap ∧
      List.Forall₂ R (sps.eraseIdx i) (snaps.eraseIdx i) := by
  obtain ⟨sp, hsp, hR⟩ := VersionTree.getElem?_of_forall₂ h.flip hi
  refine ⟨sp, hsp, hR, ?_⟩
  rw [List.eraseIdx_eq_take_drop_succ, List.eraseIdx_eq_take_drop_succ]
  exact List.rel_append (List.forall₂_take i h) (List.forall₂_drop _ h)

/-- A savepoint of what is there. -/
theorem Safe.push (h : doc.Safe snaps)
    (hs : doc.selections.get v = some s) :
    Safe { doc with savepoints :=
        doc.savepoints ++ [⟨v, (Transaction.new doc.text).withSelection s⟩] }
      (snaps ++ [⟨v, doc.text, s⟩]) := by
  refine ⟨h.selections, h.viewData, List.forall_mem_append.mpr ⟨h.viewed,
    fun snap hsnap => ?_⟩, List.rel_append h.leads (.cons ⟨rfl,
    carries_new doc.text, rfl, h.selections.get hs⟩ .nil)⟩
  rw [List.mem_singleton.mp hsnap, hs]
  rfl

theorem Safe.erase {i : Nat} (h : doc.Safe snaps) (hi : i < snaps.length) :
    Safe { doc with savepoints := doc.savepoints.eraseIdx i }
      (snaps.eraseIdx i) := by
  obtain ⟨-, -, -, herase⟩ :=
    leads_at h.leads (List.getElem?_eq_getElem hi)
  exact ⟨h.selections, h.viewData,
    fun s hs => h.viewed s (List.mem_of_mem_eraseIdx hs), herase⟩

theorem snapshot_eq (hs : doc.selections.get v = some s) :
    doc.snapshot v = .ok ⟨v, doc.text, s⟩ := by
  rw [snapshot, selection, hs]
  rfl

theorem restore_spec {snap : Snapshot} {i : Nat} (h : doc.Safe snaps)
    (hpending : doc.Pending) (hi : snaps[i]? = some snap) :
    ∃ doc' s, doc.restore U i = .ok doc' ∧
      snap.selection.ensureInvariants U snap.text = .ok s ∧
      doc'.text = snap.text ∧ doc'.selections.get snap.view = some s ∧
      doc'.Safe (snaps.eraseIdx i ++ [⟨snap.view, doc'.text, s⟩]) ∧
      doc'.Pending := by
  obtain ⟨sp, hsp, hleads, -⟩ := leads_at h.leads hi
  obtain ⟨hlt, hget⟩ := List.getElem?_eq_some_iff.mp hi
  obtain ⟨mid, hmid, hsafe, hpending', htext, hsets⟩ :=
    @applyInner_safe U _ sp.revert sp.view _ _ (h.erase hlt)
      hpending ⟨hleads.carries, fun s hs => by
        rw [hleads.selection] at hs
        exact Option.some.inj hs ▸ hleads.within⟩
      (hleads.view ▸ h.viewed snap (hget ▸ List.getElem_mem hlt))
  obtain ⟨s, hs, hsel⟩ := hsets _ hleads.selection
  rw [htext] at hs
  rw [restore, index_eq_ok.mpr hsp, ok_bind]
  dsimp only
  rw [hmid, ok_bind, selection, hsel]
  rw [← hleads.view]
  exact ⟨_, s, rfl, hs, htext, hsel, hsafe.push hsel, hpending'⟩

/-- The savepoint that is handed out, new or not, is of what is there. -/
theorem savepoint_spec (h : doc.Safe snaps)
    (hs : doc.selections.get v = some s) :
    ∃ after snaps', touch U (doc, snaps) (.savepoint v) = .ok (after, snaps') ∧
      after.Safe snaps' ∧ after.text = doc.text ∧
      after.changes = doc.changes ∧
      snaps'.getLast? = some ⟨v, doc.text, s⟩ := by
  rw [touch, snapshot_eq hs, ok_bind]
  by_cases hsame : (doc.savepoints.getLast?.any fun sp =>
      sp.view == v && sp.revert.changes.isEmpty &&
        decide (sp.revert.selection = some s)) = true
  · have hx : doc.savepoint v = .ok doc := by
      rw [savepoint, selection, hs]
      exact if_pos hsame
    rw [hx, ok_bind, if_pos rfl]
    refine ⟨doc, snaps, rfl, h, rfl, rfl, ?_⟩
    obtain ⟨sp, hlast, hsp⟩ := (Option.any_eq_true ..).mp hsame
    simp only [Bool.and_eq_true, beq_iff_eq, decide_eq_true_eq] at hsp
    obtain ⟨⟨hview, hempty⟩, hsel⟩ := hsp
    rw [List.getLast?_eq_getElem?, h.leads.length_eq] at hlast
    have hlt : snaps.length - 1 < snaps.length := by
      have := (List.getElem?_eq_some_iff.mp hlast).1
      rw [h.leads.length_eq] at this
      exact this
    have hget := List.getElem?_eq_getElem hlt
    obtain ⟨_, hsp, hleads, -⟩ := leads_at h.leads hget
    obtain rfl := Option.some.inj (hlast.symm.trans hsp)
    rw [List.getLast?_eq_getElem?, hget, ← hview, hleads.view,
      ChangeSet.Carries.unchanged hleads.carries hempty,
      Option.some.inj (hsel.symm.trans hleads.selection)]
  · have hx : doc.savepoint v = .ok { doc with savepoints := doc.savepoints ++
        [⟨v, (Transaction.new doc.text).withSelection s⟩] } := by
      rw [savepoint, selection, hs]
      exact if_neg hsame
    rw [hx, ok_bind, if_neg (by simp)]
    exact ⟨_, _, rfl, h.push hs, rfl, rfl, List.getLast?_concat⟩

/-- What the callers give to a step. -/
def Takes : Document × List Snapshot → Touch → Prop
  | (doc, _), .apply v tx =>
      (∃ u, Fits tx doc.text u) ∧ (doc.selections.get v).isSome
  | (doc, _), .handOut _ txs => FitAll doc.text txs
  | (doc, _), .savepoint v => (doc.selections.get v).isSome
  | (_, snaps), .restore i | (_, snaps), .forget i => i < snaps.length

theorem touch_safe {a : Touch} (h : doc.Safe snaps) (hpending : doc.Pending)
    (ha : Takes (doc, snaps) a) :
    ∃ doc' snaps', touch U (doc, snaps) a = .ok (doc', snaps') ∧
      doc'.Safe snaps' ∧ doc'.Pending := by
  cases a with
  | apply v tx =>
      obtain ⟨⟨u, htx⟩, hv⟩ := ha
      rw [touch, apply]
      split
      · exact ⟨doc, snaps, rfl, h, hpending⟩
      · obtain ⟨doc', hx, hsafe, hpending', -⟩ :=
          applyInner_safe (U := U) h hpending htx hv
        rw [hx]
        exact ⟨doc', snaps, rfl, hsafe, hpending'⟩
  | handOut v txs =>
      obtain ⟨b, doc', hx, hsafe, hsame⟩ :=
        applyEach_safe (U := U) (v := v) h ha
      rw [touch, hx]
      cases b with
      | false => exact ⟨doc', snaps, rfl, hsafe, hsame rfl ▸ hpending⟩
      | true =>
          exact ⟨_, snaps, rfl, ⟨hsafe.selections, hsafe.viewData,
            hsafe.viewed, hsafe.leads⟩, _, carries_new doc'.text⟩
  | savepoint v =>
      obtain ⟨s, hs⟩ := Option.isSome_iff_exists.mp ha
      obtain ⟨after, snaps', hx, hsafe, htext, hchanges, -⟩ :=
        savepoint_spec (U := U) h hs
      obtain ⟨old, hold⟩ := hpending
      exact ⟨after, snaps', hx, hsafe, old, by rwa [hchanges, htext]⟩
  | restore i =>
      have hi : snaps[i]? = some snaps[i] := List.getElem?_eq_getElem ha
      obtain ⟨doc', s, hx, -, -, hs, hsafe, hpending'⟩ :=
        restore_spec (U := U) h hpending hi
      rw [touch, index_eq_ok.mpr hi, ok_bind, hx, ok_bind, snapshot_eq hs]
      exact ⟨doc', _, rfl, hsafe, hpending'⟩
  | forget i => exact ⟨_, _, rfl, h.erase ha, hpending⟩

-- == law

end Document

end Zmax
