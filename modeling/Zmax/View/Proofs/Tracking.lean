/-
The document as an implementation of the timeline.

`Tracked recorded doc` says that the history of the document records the
texts `recorded`, and that the pending changes carry the text of the
current revision to the text of the document. Committing then is one
step of the timeline (`append_spec`), and moving through the history
ends at the text of some revision (`move_spec`). A commit keeps the
history recorded if the step of the timeline does (`Sustains`).
-/
import Zmax.Core.Proofs.Renumber
import Zmax.View.Proofs.Document
import Zmax.View.Session

namespace Zmax

open VersionTree

variable {U : Unicode} {clock : Clock}

-- == edges

/-- Pending changes have an inversion that leads back, if there are
any. -/
theorem Transaction.Carries.spans {tx : Transaction} {t u : Rope}
    (h : tx.Carries t u) (he : ¬ tx.changes.isEmpty) :
    tx.Spans t u ∧ ∃ inversion, tx.invert t = .ok inversion
      ∧ ∀ selection, (inversion.withSelection selection).Spans u t := by
  have hwf := ChangeSet.Carries.wellFormed h he
  obtain ⟨i, hi, hwi, -⟩ := hwf.invert h.len
  obtain ⟨i', hi', hci, -⟩ := hwf.carries_invert h
  rw [hi] at hi'
  injection hi' with hi'
  subst hi'
  refine ⟨⟨hwf, h⟩, ⟨i, none⟩, ?_, fun selection => ⟨hwi, hci⟩⟩
  unfold Transaction.invert
  rw [hi]
  rfl

namespace Timeline

/-- A step that keeps the history recorded: a commit whose trim finds
one text under the revisions it reattaches, a join that leaves the text
as it is or is into a leaf. -/
def Sustains (s : Timeline) : Action → Prop
  | .commit undoLevels tx selection now =>
      Regrafting s (.commit undoLevels tx selection now)
  | .join tx _ _ => tx.Turns s.text s.text ∨ ∀ (j : Nat) w,
      s.history.revisions[j]? = some w → 0 < j →
      w.parent ≠ s.history.current
  | .navigate _ => True

/-- Every action of a commit is about these changes; a join is above the
root. -/
def About (s : Timeline) (tx : Transaction) : Action → Prop
  | .commit _ tx' _ _ => tx' = tx
  | .join tx' _ _ => tx' = tx ∧ 0 < s.history.current
  | .navigate _ => False

/-- A step that sustains the history can be taken. -/
theorem Sound.sustain {s : Timeline} (hs : Sound Transaction.Spans s)
    {tx : Transaction} {text : Rope} (htx : tx.Carries s.text text)
    (he : ¬ tx.changes.isEmpty) {a : Action} (habout : s.About tx a)
    (hsustains : s.Sustains a) :
    ∃ s', exec clock s a = .ok s' ∧ Sound Transaction.Spans s'
      ∧ s'.text = text := by
  obtain ⟨hforth, inversion, hi, hback⟩ := htx.spans he
  cases a with
  | commit undoLevels tx' selection now =>
      obtain rfl : tx' = tx := habout
      exact hs.commit_capped (fun _ _ _ _ => Transaction.Spans.unique) htx hi
        hforth hback hsustains
  | join tx' selection now =>
      obtain ⟨rfl, hpos⟩ := habout
      obtain ⟨s', v', hx, hsound, htext, -⟩ := @Sound.exec_join _ clock s hs
        Transaction.chains_spans hpos tx' inversion text htx hi hforth hback
        hsustains selection now
      exact ⟨s', hx, hsound, htext⟩
  | navigate nav => exact absurd habout id

end Timeline

namespace Document

variable {doc doc' : Document} {recorded : List Rope}

/-- The history records the texts, and the pending changes lead from the
current revision's to the document's. -/
structure Tracked (recorded : List Rope) (doc : Document) : Prop where
  sound : Timeline.Sound Transaction.Spans (doc.timeline recorded)
  carries : doc.changes.Carries (textAt recorded doc.history.current)
    doc.text
  old : ¬ doc.changes.isEmpty → ∃ state, doc.oldState = some state
    ∧ state.doc = textAt recorded doc.history.current

/-- The number of the current revision. -/
theorem Tracked.current_lt (ht : doc.Tracked recorded) :
    doc.history.current < recorded.length := by
  have hr := ht.sound.recorded
  have hlen : recorded.length = doc.history.revisions.length := hr.length
  rw [hlen]
  exact hr.current

/-- What a commit would commit leads from the text of the current revision
to the document's. -/
theorem Tracked.pending (ht : doc.Tracked recorded)
    (selection : Selection) :
    ((Transaction.ofChanges doc.changes).withSelection selection).Carries
      (doc.timeline recorded).text doc.text := ht.carries

/-- With nothing pending the text is the current revision's. -/
theorem Tracked.text (ht : doc.Tracked recorded)
    (he : doc.changes.isEmpty) :
    textAt recorded doc.history.current = doc.text :=
  ht.carries.unchanged he

/-- A change set without operations, of the length of the text. -/
theorem carries_new (text : Rope) :
    (ChangeSet.new text).Carries text text :=
  ⟨.inr (ChangeSet.isIdentity_new text), rfl, rfl⟩

theorem isEmpty_new (text : Rope) : (ChangeSet.new text).isEmpty := rfl

/-- A document whose history is at the text it shows. -/
theorem Tracked.of_new {h : Timeline}
    (hs : Timeline.Sound Transaction.Spans h)
    (hhistory : doc.history = h.history) (htext : doc.text = h.text)
    (hchanges : doc.changes = .new doc.text) :
    doc.Tracked h.recorded := by
  have hcurrent : textAt h.recorded doc.history.current = doc.text := by
    rw [hhistory, htext]
    exact hs.text
  refine ⟨⟨?_, rfl, ?_⟩, ?_, ?_⟩
  · show doc.history.Recorded _ h.recorded
    rw [hhistory]
    exact hs.recorded
  · show doc.history.maxRevisions = none
    rw [hhistory]
    exact hs.uncapped
  · rw [hcurrent, hchanges]
    exact carries_new doc.text
  · intro hne
    rw [hchanges] at hne
    exact absurd (isEmpty_new _) hne

/-- Whether a document is tracked is a matter of its text, its pending
changes and its history. -/
theorem Tracked.congr (ht : doc.Tracked recorded)
    (htext : doc'.text = doc.text) (hchanges : doc'.changes = doc.changes)
    (hold : doc'.oldState = doc.oldState)
    (hhistory : doc'.history = doc.history) : doc'.Tracked recorded := by
  have htimeline : doc'.timeline recorded = doc.timeline recorded := by
    unfold timeline
    rw [hhistory]
  refine ⟨htimeline ▸ ht.sound, ?_, ?_⟩
  · rw [hhistory, htext, hchanges]
    exact ht.carries
  · rw [hhistory, hchanges, hold]
    exact ht.old

-- == editing

variable {tx : Transaction} {view view' : View}

/-- An edit that is made for the text keeps the document tracked. -/
theorem Tracked.apply (ht : doc.Tracked recorded) {v : ViewId}
    (hfits : Timeline.Fits tx doc.text) {b : Bool}
    (hx : doc.apply U tx v = .ok (b, doc')) :
    doc'.Tracked recorded ∧ doc'.history = doc.history
      ∧ doc'.lastSavedRevision = doc.lastSavedRevision
      ∧ doc'.id = doc.id := by
  obtain ⟨text, -, hc, -⟩ := hfits.edges
  rcases apply_spec hc hx with ⟨-, rfl⟩ | ⟨selections, viewData,
    savepoints, oldState, changes, rfl, -, -, -, hpending⟩
  · exact ⟨ht, rfl, rfl, rfl⟩
  refine ⟨⟨⟨ht.sound.recorded, rfl, ht.sound.uncapped⟩, ?_, ?_⟩,
    rfl, rfl, rfl⟩
  · by_cases he : tx.changes.isEmpty
    · rw [if_pos he] at hpending
      obtain ⟨-, rfl⟩ := hpending
      have hcarries := ht.carries
      rw [ChangeSet.Carries.unchanged hc he] at hcarries
      exact hcarries
    · rw [if_neg he] at hpending
      obtain ⟨changes', hcomp, hcarries⟩ := ht.carries.compose hc
      rw [hpending.1] at hcomp
      injection hcomp with hcomp
      exact hcomp ▸ hcarries
  · intro hne
    by_cases he : tx.changes.isEmpty
    · rw [if_pos he] at hpending
      obtain ⟨rfl, rfl⟩ := hpending
      exact ht.old hne
    · rw [if_neg he] at hpending
      obtain ⟨-, hold⟩ := hpending
      split at hold
      · next hempty =>
          -- the first change: the state before it is the revision's
          obtain ⟨selection, -, rfl⟩ := hold
          exact ⟨_, rfl, (ht.text hempty).symm⟩
      · next hempty =>
          subst hold
          exact ht.old hempty

-- == committing

/-- What a commit does to the timeline is about the pending changes. -/
theorem about_committing {undoLevels : Nat} {now : Instant} {v : ViewId}
    {a : Timeline.Action}
    (ha : a ∈ doc.committing undoLevels now v) :
    ∃ selection state, doc.selections.get v = some selection
      ∧ doc.oldState = some state ∧ ¬ doc.changes.isEmpty
      ∧ (doc.timeline recorded).About
          ((Transaction.ofChanges doc.changes).withSelection selection) a := by
  unfold committing at ha
  split at ha
  · cases ha
  next hne =>
  split at ha
  · next state selection hold hsel =>
      injection ha with ha
      subst ha
      refine ⟨selection, state, hsel, hold, hne, ?_⟩
      split
      · next hjoin => exact ⟨rfl, Nat.pos_of_ne_zero hjoin.2⟩
      · rfl
  · cases ha

/-- A join above the root moves the current revision to the new text. -/
theorem recorded_join {line : Timeline} {selection : Selection}
    {now : Instant}
    (hexec : (doc.timeline recorded).exec clock (.join tx selection now)
      = .ok line)
    (hpos : 0 < (doc.timeline recorded).history.current) :
    line.recorded = recorded.set doc.history.current line.text := by
  rw [Timeline.exec] at hexec
  obtain ⟨history, -, hexec⟩ := bind_eq_ok.mp hexec
  obtain ⟨⟨b, text⟩, -, hexec⟩ := bind_eq_ok.mp hexec
  injection hexec with hexec
  rw [← hexec]
  exact if_neg (Nat.ne_of_gt hpos)

/-- The document after a commit. -/
def committed (doc : Document) (history : History) : Document :=
  { doc with
    changes := .new doc.text
    oldState := none
    undojoinPending := false
    history := history }

/-- A commit of pending changes takes the history where the step of the
timeline does. -/
theorem committing_spec (ht : doc.Tracked recorded)
    (he : ¬ doc.changes.isEmpty) {v : ViewId} {selection : Selection}
    {state : State} (hget : doc.selections.get v = some selection)
    (hold : doc.oldState = some state)
    (hstate : state.doc = textAt recorded doc.history.current)
    (undoLevels : Nat) (now : Instant) :
    ∃ a, a ∈ doc.committing undoLevels now v ∧ ∀ clock timeline,
      (doc.timeline recorded).exec clock a = .ok timeline →
      doc.commitTransaction undoLevels now
        ((Transaction.ofChanges doc.changes).withSelection selection) state
        = .ok timeline.history := by
  have hstate : state
      = ⟨textAt recorded doc.history.current, state.selection⟩ := by
    rw [← hstate]
  unfold committing
  rw [if_neg he, hold, hget]
  refine ⟨_, rfl, fun clock timeline hexec => ?_⟩
  unfold commitTransaction
  split at hexec
  · next hjoin =>
      rw [Timeline.exec] at hexec
      obtain ⟨history, hh, hexec⟩ := bind_eq_ok.mp hexec
      obtain ⟨⟨b, text⟩, -, hexec⟩ := bind_eq_ok.mp hexec
      injection hexec with hexec
      subst hexec
      rw [if_pos hjoin.1, hstate]
      unfold History.mergeLastRevision at hh ⊢
      have hne : ¬ (doc.timeline recorded).history.current = 0 := hjoin.2
      rw [if_neg hne] at hh
      rw [if_neg hjoin.2]
      exact hh
  · next hjoin =>
      rw [Timeline.exec] at hexec
      obtain ⟨history, hh, hexec⟩ := bind_eq_ok.mp hexec
      obtain ⟨⟨b, text⟩, -, hexec⟩ := bind_eq_ok.mp hexec
      obtain ⟨untrimmed, -, hexec⟩ := bind_eq_ok.mp hexec
      injection hexec with hexec
      subst hexec
      rw [hstate]
      split
      · next hpending =>
          -- at the root a join is a commit
          have h0 : doc.history.current = 0 := by
            by_contra hne
            exact hjoin ⟨hpending, hne⟩
          unfold History.mergeLastRevision
          rw [if_pos h0]
          exact hh
      · exact hh

/-- Committing is nothing if there is nothing pending, and else one step
of the timeline, which the view follows. -/
theorem append_spec (ht : doc.Tracked recorded) {m : Moment}
    {view view' : View}
    (hsustains : ∀ a ∈ doc.committing m.undoLevels m.now view.id,
      (doc.timeline recorded).Sustains a)
    (hx : doc.appendChangesToHistory U m.undoLevels m.now view
      = .ok (doc', view')) :
    (doc.changes.isEmpty ∧ doc' = doc ∧ view' = view
      ∧ Session.recordedAfter clock recorded doc m view.id = recorded) ∨
    ∃ a timeline selection,
      a ∈ doc.committing m.undoLevels m.now view.id
      ∧ (doc.timeline recorded).exec clock a = .ok timeline
      ∧ Timeline.Sound Transaction.Spans timeline
      ∧ timeline.text = doc.text
      ∧ Session.recordedAfter clock recorded doc m view.id
          = timeline.recorded
      ∧ doc' = doc.committed timeline.history
      ∧ view.apply U
          ((Transaction.ofChanges doc.changes).withSelection selection) doc'
          = .ok view' := by
  unfold appendChangesToHistory at hx
  by_cases he : doc.changes.isEmpty
  · rw [if_pos he] at hx
    injection hx with hx
    injection hx with hdoc hview
    refine .inl ⟨he, hdoc.symm, hview.symm, ?_⟩
    unfold Session.recordedAfter committing
    rw [if_pos he]
  right
  rw [if_neg he] at hx
  obtain ⟨selection, hsel, hx⟩ := bind_eq_ok.mp hx
  obtain ⟨state, hold, hdoc⟩ := ht.old he
  have hget : doc.selections.get view.id = some selection := by
    unfold Document.selection at hsel
    split at hsel
    · next s hs =>
        injection hsel with hsel
        rw [hs, hsel]
    · cases hsel
  obtain ⟨state', hstate', hx⟩ := bind_eq_ok.mp hx
  obtain ⟨history, hcommit, hx⟩ := bind_eq_ok.mp hx
  obtain ⟨view'', hview, hx⟩ := bind_eq_ok.mp hx
  injection hx with hx
  injection hx with hdoc' hview'
  subst hdoc' hview'
  unfold expectOldState at hstate'
  rw [hold] at hstate'
  injection hstate' with hstate'
  subst hstate'
  obtain ⟨a, ha, hexact⟩ := committing_spec ht he hget hold hdoc
    m.undoLevels m.now
  obtain ⟨selection', state', hget', hold', -, habout⟩ :=
    @about_committing doc recorded _ _ _ a ha
  rw [hget] at hget'
  injection hget' with hget'
  subst hget'
  obtain ⟨timeline, hexec, hsound, htext⟩ := @Timeline.Sound.sustain clock
    (doc.timeline recorded) ht.sound _ doc.text (ht.pending selection) he a
    habout (hsustains a ha)
  rw [hexact clock timeline hexec] at hcommit
  injection hcommit with hcommit
  subst hcommit
  refine ⟨a, timeline, selection, ha, hexec, hsound, htext, ?_, rfl, hview⟩
  unfold Session.recordedAfter
  rw [Option.mem_def.mp ha]
  dsimp only
  rw [hexec]

/-- After a commit nothing is pending, and the document is tracked
still. -/
theorem Tracked.append (ht : doc.Tracked recorded) {m : Moment}
    {view view' : View}
    (hsustains : ∀ a ∈ doc.committing m.undoLevels m.now view.id,
      (doc.timeline recorded).Sustains a)
    (hx : doc.appendChangesToHistory U m.undoLevels m.now view
      = .ok (doc', view')) :
    doc'.Tracked (Session.recordedAfter clock recorded doc m view.id)
      ∧ doc'.changes.isEmpty
      ∧ ∃ history changes oldState undojoinPending, doc' = { doc with
          history := history
          changes := changes
          oldState := oldState
          undojoinPending := undojoinPending } := by
  rcases @append_spec U clock doc doc' recorded ht m view view' hsustains hx
    with ⟨he, rfl, -, hrec⟩ | ⟨a, timeline, selection, -, -, hsound, htext, hrec,
      rfl, -⟩
  · rw [hrec]
    exact ⟨ht, he, _, _, _, _, rfl⟩
  · rw [hrec]
    exact ⟨.of_new hsound rfl htext.symm rfl, rfl, _, _, _, _, rfl⟩

-- == moving

/-- What the history hands out leads the document from text to text. -/
theorem applyEach_spec {v : ViewId} {txs : List Transaction} {t u : Rope}
    (hp : Path Transaction.Spans txs t u) :
    ∀ {doc doc' : Document} {b : Bool}, doc.text = t →
      doc.applyEach U v txs = .ok (b, doc') →
      b = !txs.isEmpty
      ∧ (∃ selections viewData savepoints, doc' = { doc with
          text := u
          selections := selections
          viewData := viewData
          savepoints := savepoints })
      ∧ (doc.viewData.All (·.anchor ≤ t.length) →
          doc'.viewData.All (·.anchor ≤ u.length)) := by
  induction hp with
  | nil t =>
      rintro doc doc' b rfl hx
      injection hx with hx
      injection hx with hb hdoc
      subst hb hdoc
      exact ⟨rfl, ⟨_, _, _, rfl⟩, fun h => h⟩
  | cons htx hp ih =>
      rintro doc doc' b rfl hx
      rw [applyEach] at hx
      obtain ⟨⟨applied, d⟩, hd, hx⟩ := bind_eq_ok.mp hx
      obtain ⟨⟨success, d'⟩, hd', hx⟩ := bind_eq_ok.mp hx
      injection hx with hx
      injection hx with hb hdoc
      subst hb hdoc
      obtain ⟨rfl, ⟨selections, viewData, savepoints, rfl⟩, -, hview, -⟩ :=
        applyImpl_spec htx.carries hd
      obtain ⟨-, ⟨selections', viewData', savepoints', rfl⟩, hview'⟩ :=
        ih rfl hd'
      exact ⟨rfl, ⟨_, _, _, rfl⟩, fun h => hview' (hview h)⟩

/-- The commit of a move, if it commits. -/
def flush (U : Unicode) (doc : Document) (m : Moment) (view : View)
    (nav : Navigation) : Result (Document × View) :=
  if nav.commits then
    (doc.facing nav).appendChangesToHistory U m.undoLevels m.now view
  else .ok (doc.facing nav, view)

/-- Every move has the same shape: commit, ask the history, apply. -/
theorem move_eq (m : Moment) (view : View) (nav : Navigation) :
    doc.move U clock m.undoLevels m.now view nav =
      if !nav.commits && !doc.changes.isEmpty then
        .ok (false, doc.facing nav, view)
      else do
        let (d, view) ← doc.flush U m view nav
        let (txs, h) ← d.history.navigate clock nav
        let (success, d) ←
          ({ d with history := h } : Document).applyEach U view.id txs
        return (success, d, view) := by
  unfold flush
  cases nav with
  | undo =>
      simp [move, undoRedoMove, Navigation.commits, facing, History.navigate]
  | redo =>
      simp [move, undoRedoMove, Navigation.commits, facing, History.navigate]
      rfl
  | jumpToRevision target => rfl
  | earlier uk => rfl
  | later uk =>
      simp [move, earlierLaterMove, Navigation.commits, facing,
        History.navigate]
      rfl

theorem navigate_eq (undoLevels : Nat) (now : Instant) (view : View)
    (nav : Navigation) :
    doc.navigate U clock undoLevels now view nav = (do
      let (success, doc, view) ← doc.move U clock undoLevels now view nav
      settle U success doc view) := by
  cases nav <;> rfl

/-- What a move faces differs at most in the pending `:undojoin`. -/
theorem facing_eq (nav : Navigation) : ∃ undojoinPending,
    doc.facing nav = { doc with undojoinPending := undojoinPending } := by
  cases nav <;> exact ⟨_, rfl⟩

theorem Tracked.facing (ht : doc.Tracked recorded) (nav : Navigation) :
    (doc.facing nav).Tracked recorded := by
  obtain ⟨undojoinPending, heq⟩ := @facing_eq doc nav
  rw [heq]
  exact ⟨⟨ht.sound.recorded, rfl, ht.sound.uncapped⟩, ht.carries, ht.old⟩

theorem timeline_facing (nav : Navigation) :
    (doc.facing nav).timeline recorded = doc.timeline recorded := by
  cases nav <;> rfl

/-- The recorded texts after a move. -/
def recordedMove (clock : Clock) (recorded : List Rope) (doc : Document)
    (m : Moment) (view : View) (nav : Navigation) : List Rope :=
  if nav.commits then
    Session.recordedAfter clock recorded (doc.facing nav) m view.id
  else recorded

/-- The commit of a move, if there is one, sustains the history. -/
def SustainsMove (recorded : List Rope) (doc : Document) (m : Moment)
    (view : View) (nav : Navigation) : Prop :=
  nav.commits = true →
    ∀ a ∈ (doc.facing nav).committing m.undoLevels m.now view.id,
      (doc.timeline recorded).Sustains a

/-- After the commit of a move the document is tracked, and with nothing
pending if there was none. -/
theorem flush_spec (ht : doc.Tracked recorded) {m : Moment}
    {view view' : View} {nav : Navigation} {d : Document}
    (hsustains : doc.SustainsMove recorded m view nav)
    (hx : doc.flush U m view nav = .ok (d, view')) :
    d.Tracked (recordedMove clock recorded doc m view nav)
      ∧ (nav.commits = true ∨ doc.changes.isEmpty → d.changes.isEmpty)
      ∧ ∃ history changes oldState undojoinPending, d = { doc with
          history := history
          changes := changes
          oldState := oldState
          undojoinPending := undojoinPending } := by
  obtain ⟨undojoinPending, heq⟩ := @facing_eq doc nav
  unfold flush at hx
  unfold recordedMove
  cases hcommits : nav.commits with
  | true =>
      rw [hcommits, if_pos rfl] at hx
      rw [if_pos rfl]
      have hsustains := hsustains hcommits
      rw [← @timeline_facing doc recorded nav] at hsustains
      obtain ⟨htracked, hempty, history, changes, oldState,
        undojoinPending', hd⟩ := @Tracked.append U clock (doc.facing nav) d
          recorded (ht.facing nav) m view view' hsustains hx
      rw [heq] at hd
      exact ⟨htracked, fun _ => hempty, _, _, _, _, hd⟩
  | false =>
      rw [hcommits, if_neg (by decide)] at hx
      rw [if_neg (by decide)]
      injection hx with hx
      injection hx with hd hview
      subst hd
      refine ⟨ht.facing nav, ?_, _, _, _, _, heq⟩
      rintro (h | h)
      · cases h
      · rw [heq]
        exact h

/-- A move stops because of pending changes that it does not commit; or
it commits, and takes the document to the text of another revision. -/
theorem move_spec (ht : doc.Tracked recorded) {m : Moment} {nav : Navigation}
    {success : Bool} (hsustains : doc.SustainsMove recorded m view nav)
    (hx : doc.move U clock m.undoLevels m.now view nav
      = .ok (success, doc', view')) :
    (nav.commits = false ∧ success = false ∧ doc' = doc.facing nav
      ∧ view' = view) ∨
    ∃ d target selections viewData savepoints,
      doc.flush U m view nav = .ok (d, view')
      ∧ d.changes.isEmpty
      ∧ target < d.history.revisions.length
      ∧ doc' = { d with
          history := { d.history with current := target }
          text := textAt (recordedMove clock recorded doc m view nav) target
          selections := selections
          viewData := viewData
          savepoints := savepoints }
      ∧ (success = false → d.text
          = textAt (recordedMove clock recorded doc m view nav) target)
      ∧ (d.viewData.All (·.anchor ≤ d.text.length) →
          doc'.viewData.All (·.anchor ≤ doc'.text.length)) := by
  rw [move_eq] at hx
  split at hx
  · next hstop =>
      simp only [Bool.and_eq_true, Bool.not_eq_true'] at hstop
      injection hx with hx
      injection hx with hsuccess hx
      injection hx with hdoc hview
      exact .inl ⟨hstop.1, hsuccess.symm, hdoc.symm, hview.symm⟩
  next hgo =>
  right
  obtain ⟨⟨d, view₁⟩, hflush, hx⟩ := bind_eq_ok.mp hx
  obtain ⟨⟨txs, h⟩, hnav, hx⟩ := bind_eq_ok.mp hx
  obtain ⟨⟨success', d'⟩, heach, hx⟩ := bind_eq_ok.mp hx
  injection hx with hx
  injection hx with hsuccess hx
  injection hx with hdoc hview
  subst hsuccess hdoc hview
  obtain ⟨htracked, hpend, -⟩ :=
    @flush_spec U clock doc recorded ht m view view₁ nav d hsustains hflush
  have hempty : d.changes.isEmpty := by
    apply hpend
    cases hcommits : nav.commits with
    | true => exact .inl rfl
    | false =>
        right
        rw [hcommits] at hgo
        simpa using hgo
  generalize recordedMove clock recorded doc m view nav = recorded'
    at htracked ⊢
  obtain ⟨txs', target, hnav', htarget, hp⟩ :=
    History.navigate_spec htracked.sound.recorded clock nav
  have hnav'' : d.history.navigate clock nav
      = .ok (txs', { d.history with current := target }) := hnav'
  rw [hnav] at hnav''
  injection hnav'' with hnav''
  injection hnav'' with htxs hh
  subst htxs hh
  have hp' : Path Transaction.Spans txs d.text (textAt recorded' target) := by
    rw [← htracked.text hempty]
    exact hp
  obtain ⟨hb, ⟨selections, viewData, savepoints, rfl⟩, hview⟩ :=
    @applyEach_spec U view₁.id _ _ _ hp'
      { d with history := { d.history with current := target } } _ _ rfl
      heach
  refine ⟨d, target, selections, viewData, savepoints, hflush, hempty,
    htarget, rfl, fun hfalse => ?_, hview⟩
  -- no transaction: the text stays
  rw [hfalse] at hb
  have hnil : txs = [] := by simpa using hb
  rw [hnil] at hp'
  generalize d.text = t at hp' ⊢
  generalize textAt recorded' target = u at hp' ⊢
  cases hp'
  rfl

/-- The document as a move leaves it for the sync. -/
def settled (success : Bool) (doc : Document) : Document :=
  if success then { doc with changes := .new doc.text } else doc

/-- Every move ends with a sync of the view, if it was successful. -/
theorem settle_eq (success : Bool) (view : View) :
    settle U success doc view =
      (if success then view.syncChanges U (doc.settled success)
        else .ok view)
        >>= fun view => .ok (success, doc.settled success, view) := by
  cases success <;> rfl

/-- A move keeps the document tracked. -/
theorem Tracked.move (ht : doc.Tracked recorded) {m : Moment}
    {nav : Navigation} {success : Bool}
    (hsustains : doc.SustainsMove recorded m view nav)
    (hx : doc.move U clock m.undoLevels m.now view nav
      = .ok (success, doc', view')) :
    (doc'.settled success).Tracked
        (recordedMove clock recorded doc m view nav)
      ∧ doc'.lastSavedRevision = doc.lastSavedRevision := by
  rcases move_spec ht hsustains hx with ⟨hcommits, rfl, rfl, -⟩ |
    ⟨d, target, selections, viewData, savepoints, hflush, hempty, htarget,
      rfl, hstay, -⟩
  · obtain ⟨undojoinPending, heq⟩ := @facing_eq doc nav
    unfold recordedMove
    rw [hcommits, if_neg (by decide)]
    exact ⟨ht.facing nav, by rw [heq]⟩
  obtain ⟨htracked, -, history, changes, oldState, undojoinPending, hsame⟩ :=
    @flush_spec U clock doc recorded ht m view view' nav d hsustains hflush
  generalize recordedMove clock recorded doc m view nav = recorded'
    at htracked hstay ⊢
  have hlast : d.lastSavedRevision = doc.lastSavedRevision := by
    rw [hsame]
  refine ⟨?_, hlast⟩
  have hmove : Timeline.Sound Transaction.Spans
      ⟨{ d.history with current := target }, textAt recorded' target,
        recorded'⟩ :=
    ⟨htracked.sound.recorded.move htarget, rfl, htracked.sound.uncapped⟩
  cases success with
  | true => exact .of_new hmove rfl rfl rfl
  | false =>
      -- nothing was applied, and the pending changes are empty still
      have hcarries := htracked.carries
      rw [htracked.text hempty, hstay rfl] at hcarries
      exact ⟨hmove, hcarries, fun hne => absurd hempty hne⟩

/-- A reload: the edit, and then a commit or a new history, and the text
that is then there is marked as saved. -/
theorem reload_spec {undoLevels : Nat} {now : Instant} {lines : Nat}
    {undoreload : Int}
    (hx : doc.reload U undoLevels now view tx lines undoreload
      = .ok (doc', view')) :
    ∃ b applied kept, doc.apply U tx view.id = .ok (b, applied)
      ∧ (if undoreloadSavesUndo lines undoreload then
          applied.appendChangesToHistory U undoLevels now view
            = .ok (kept, view')
        else
          kept = { applied with
            history := .default now
            changes := .new applied.text
            oldState := none }
          ∧ view' = view)
      ∧ doc' = kept.resetModified := by
  unfold reload at hx
  obtain ⟨⟨b, applied⟩, happly, hx⟩ := bind_eq_ok.mp hx
  dsimp only at hx
  refine ⟨b, applied, ?_⟩
  cases hsaves : undoreloadSavesUndo lines undoreload with
  | true =>
      rw [hsaves, if_pos rfl] at hx
      obtain ⟨⟨kept, view''⟩, happend, hx⟩ := bind_eq_ok.mp hx
      injection hx with hx
      injection hx with hdoc hview
      subst hview
      exact ⟨kept, happly, happend, hdoc.symm⟩
  | false =>
      rw [hsaves, if_neg (by decide)] at hx
      injection hx with hx
      injection hx with hdoc hview
      exact ⟨_, happly, ⟨rfl, hview.symm⟩, hdoc.symm⟩

end Document

-- == sessions

namespace Session

variable {s s' : Session} {m : Moment} {v : ViewId}

theorem view_eq_ok {view : View} :
    s.view v = .ok view ↔ s.views.get v = some view := by
  unfold Session.view
  cases s.views.get v <;> simp

/-- What a commit through a view does. -/
theorem append_cases (hx : s.append U clock m v = .ok s') :
    ∃ view doc view', s.views.get v = some view
      ∧ s.doc.appendChangesToHistory U m.undoLevels m.now view
          = .ok (doc, view')
      ∧ s' = { s with
          doc := doc
          views := s.views.insert v view'
          recorded := recordedAfter clock s.recorded s.doc m view.id } := by
  unfold Session.append at hx
  obtain ⟨view, hview, hx⟩ := bind_eq_ok.mp hx
  obtain ⟨⟨doc, view'⟩, happend, hx⟩ := bind_eq_ok.mp hx
  injection hx with hx
  exact ⟨view, doc, view', view_eq_ok.mp hview, happend, hx.symm⟩

/-- What a move through a view does: the move, and the sync after it. -/
theorem navigate_cases {nav : Navigation}
    (hx : s.exec U clock (.navigate m v nav) = .ok s') :
    ∃ view success doc view' view'', s.views.get v = some view
      ∧ s.doc.move U clock m.undoLevels m.now view nav
          = .ok (success, doc, view')
      ∧ (if success then view'.syncChanges U (doc.settled success)
        else .ok view') = .ok view''
      ∧ s' = { s with
          doc := doc.settled success
          views := s.views.insert v view''
          recorded :=
            Document.recordedMove clock s.recorded s.doc m view nav } := by
  rw [exec] at hx
  obtain ⟨view, hview, hx⟩ := bind_eq_ok.mp hx
  obtain ⟨⟨b, doc, view'⟩, hnav, hx⟩ := bind_eq_ok.mp hx
  injection hx with hx
  rw [Document.navigate_eq] at hnav
  obtain ⟨⟨success, doc', view''⟩, hmove, hnav⟩ := bind_eq_ok.mp hnav
  dsimp only at hnav
  rw [Document.settle_eq] at hnav
  obtain ⟨synced, hsync, hnav⟩ := bind_eq_ok.mp hnav
  injection hnav with hnav
  injection hnav with _ hnav
  injection hnav with hdoc hview'
  subst hdoc hview'
  exact ⟨view, success, doc', view'', synced, view_eq_ok.mp hview, hmove,
    hsync, hx.symm⟩

/-- What a reload through a view does: the edit, and then a commit or a
new history. -/
theorem reload_cases {tx : Transaction} {lines : Nat} {undoreload : Int}
    (hx : s.exec U clock (.reload m v tx lines undoreload) = .ok s') :
    ∃ view b applied doc view', s.views.get v = some view
      ∧ s.doc.apply U tx view.id = .ok (b, applied)
      ∧ (if Document.undoreloadSavesUndo lines undoreload then
          applied.appendChangesToHistory U m.undoLevels m.now view
            = .ok (doc, view')
          ∧ s'.recorded
              = recordedAfter clock s.recorded applied m view.id
        else
          doc = { applied with
            history := .default m.now
            changes := .new applied.text
            oldState := none }
          ∧ view' = view ∧ s'.recorded = [doc.text])
      ∧ s'.doc = doc.resetModified
      ∧ s'.views = s.views.insert v view'
      ∧ s'.saved = s'.doc.text := by
  rw [exec] at hx
  obtain ⟨view, hview, hx⟩ := bind_eq_ok.mp hx
  obtain ⟨⟨b, applied⟩, happly, hx⟩ := bind_eq_ok.mp hx
  obtain ⟨⟨doc, view'⟩, hreload, hx⟩ := bind_eq_ok.mp hx
  injection hx with hx
  subst hx
  obtain ⟨b', applied', kept, happly', hkept, rfl⟩ :=
    Document.reload_spec hreload
  obtain rfl : applied' = applied := by
    rw [happly'] at happly
    injection happly with happly
    exact (Prod.mk.inj happly).2
  refine ⟨view, b, applied', kept, view', view_eq_ok.mp hview, happly, ?_,
    rfl, rfl, rfl⟩
  split at hkept
  · next hsaves =>
      rw [if_pos hsaves]
      exact ⟨hkept, if_pos hsaves⟩
  · next hsaves =>
      rw [if_neg hsaves]
      exact ⟨hkept.1, hkept.2, if_neg hsaves⟩

end Session

end Zmax
