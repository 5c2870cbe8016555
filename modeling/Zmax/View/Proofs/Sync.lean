/-
The law of `syncChanges` over whole runs of a document with its views.

A view remembers the revision it was last synced at by its number. The
law holds as long as every view follows the history (`SyncInv`): the
number names a revision, and the jumps are within its text. The view
that commits is mapped at once. For the others, what can break it is a
trim, which renumbers the revisions, a join into the revision they
remember, and a reload that throws the history away; and for the view
itself, a sync or a push while changes are pending.
-/
import Zmax.View.Proofs.Jumps
import Zmax.View.Proofs.Saved

namespace Zmax

open Reach

variable {U : Unicode} {clock : Clock}

/-- Every view follows the history. -/
def Following (views : Table ViewId View) (recorded : List Rope)
    (docId : DocumentId) : Prop :=
  ∀ w view, views.get w = some view → view.Follows recorded docId

theorem Following.insert {views : Table ViewId View} {recorded : List Rope}
    {docId : DocumentId} (h : Following views recorded docId) {w : ViewId}
    {view : View} (hv : view.Follows recorded docId) :
    Following (views.insert w view) recorded docId := by
  intro w' view' hget
  by_cases hw : w' = w
  · subst hw
    rw [Table.get_insert_self] at hget
    injection hget with hget
    exact hget ▸ hv
  · rw [Table.get_insert_ne hw] at hget
    exact h w' view' hget

namespace Session

/-- What every other view remembers of the document will name a text
after a commit, with its jumps within. -/
def OthersRenamed (s : Session) (viewId : ViewId) (line : Timeline)
    (undoLevels : Nat) (text : Rope) : Prop :=
  ∀ w view, w ≠ viewId → s.views.get w = some view →
    ∀ revision ∈ view.docRevisions.get s.doc.id,
      ∃ t, line.renamed undoLevels text revision = some t
        ∧ view.Within s.doc.id t.length

/-- Every other view that remembers the current revision has its jumps
within the text. -/
def OthersWithin (s : Session) (viewId : ViewId) (text : Rope) : Prop :=
  ∀ w view, w ≠ viewId → s.views.get w = some view →
    view.docRevisions.get s.doc.id = some s.doc.history.current →
    view.Within s.doc.id text.length

/-- A step of the timeline that the other views can follow: a commit that
drops no revision, or renames what they remember to texts that have their
jumps within; a join that leaves the text as it is, or the jumps of every
other view that remembers the current revision within the text. -/
def FollowsCommit (s : Session) (viewId : ViewId) (doc : Document) :
    Timeline.Action → Prop
  | .commit undoLevels _ _ _ => doc.history.surplus undoLevels = 0
      ∨ s.OthersRenamed viewId (doc.timeline s.recorded) undoLevels doc.text
  | .join tx _ _ =>
      tx.Turns (doc.timeline s.recorded).text (doc.timeline s.recorded).text
        ∨ s.OthersWithin viewId doc.text
  | .navigate _ => True

/-- Committing what is pending in a document keeps the history recorded,
and the other views following it. -/
def CommitFollowed (s : Session) (viewId : ViewId) (doc : Document)
    (moment : Moment) (view : View) : Prop :=
  ∀ a ∈ doc.committing moment.undoLevels moment.now view.id,
    (doc.timeline s.recorded).Sustains a
    ∧ s.FollowsCommit viewId doc a

/-- A step after which every view follows the history. -/
def KeepsFollowing (U : Unicode) (s : Session) : Action → Prop
  | .append moment viewId | .undojoin moment viewId
  | .save moment viewId => ∀ view, s.views.get viewId = some view →
      s.CommitFollowed viewId s.doc moment view
  | .navigate moment viewId nav => ∀ view,
      s.views.get viewId = some view → nav.commits = true →
      s.CommitFollowed viewId (s.doc.facing nav) moment view
  | .reload moment viewId transaction lines undoreload => ∀ view b doc,
      s.views.get viewId = some view →
      s.doc.apply U transaction view.id = .ok (b, doc) →
      if Document.undoreloadSavesUndo lines undoreload then
        s.CommitFollowed viewId doc moment view
      else ∀ w view, s.views.get w = some view →
        ∀ revision ∈ view.docRevisions.get s.doc.id,
          revision = 0 ∧ view.Within s.doc.id doc.text.length
  | .syncChanges viewId => ∀ view, s.views.get viewId = some view →
      s.doc.changes.isEmpty ∨ view.UpToDate s.doc
  | .pushJump viewId _ selection => ∀ view,
      s.views.get viewId = some view →
      selection.Within
          (textAt s.recorded s.doc.history.current).length
        ∧ (s.doc.changes.isEmpty ∨ view.UpToDate s.doc
          ∧ ∀ position ∈ s.doc.viewData.get view.id, position.anchor
            ≤ (textAt s.recorded s.doc.history.current).length)
  | .setSelection _ _ | .apply _ _ | .setModified _ => True

/-- The invariant: the document is tracked, every view follows its
history, and no window is scrolled past its text. -/
structure SyncInv (s : Session) : Prop where
  tracked : s.doc.Tracked s.recorded
  follows : Following s.views s.recorded s.doc.id
  viewData : s.doc.viewData.All (·.anchor ≤ s.doc.text.length)

/-- Every sync succeeds, and leaves the jumps within the text: of any
view with nothing pending, and of the view that moves through the
history. With changes pending that is about the views that have nothing
to map, and are within the text already. -/
structure SyncLaw (U : Unicode) (clock : Clock) (s : Session) : Prop where
  sync : ∀ w view, s.views.get w = some view →
    s.doc.changes.isEmpty ∨ view.UpToDate s.doc →
    ∃ view', view.syncChanges U s.doc = .ok view'
      ∧ (s.doc.changes.isEmpty ∨ view.Within s.doc.id s.doc.text.length →
          view'.Within s.doc.id s.doc.text.length)
  moves : ∀ moment w nav view doc view', s.views.get w = some view →
    s.KeepsFollowing U (.navigate moment w nav) →
    s.doc.move U clock moment.undoLevels moment.now view nav
      = .ok (true, doc, view') →
    ∃ view'', view'.syncChanges U (doc.settled true) = .ok view''
      ∧ view''.Within s.doc.id (doc.settled true).text.length

theorem syncInv_start (now : Instant) (text : Rope)
    (selections : Table ViewId Selection) :
    (start now text selections).SyncInv := by
  refine ⟨.of_new (Timeline.sound_start now text) rfl rfl rfl, ?_, ?_⟩
  · intro w view hget
    obtain ⟨p, -, hp⟩ := List.mem_map.mp (Table.mem_of_get hget)
    injection hp with _ hview
    subst hview
    exact View.within_new p.1
  · intro q hq
    obtain ⟨p, -, rfl⟩ := List.mem_map.mp hq
    exact Nat.zero_le _

-- == committing

variable {doc : Document} {view : View} {moment : Moment} {s s' : Session}
  {viewId : ViewId}

/-- A view at the current revision of a document with nothing pending,
and its jumps within the text, follows the history. -/
theorem follows_current {recorded : List Rope} (ht : doc.Tracked recorded)
    (he : doc.changes.isEmpty)
    (hget : view.docRevisions.get doc.id = some doc.history.current)
    (hwithin : view.Within doc.id doc.text.length) :
    view.Follows recorded doc.id := by
  refine View.follows_of_some hget ht.current_lt ?_
  rw [ht.text he]
  exact hwithin

/-- A commit that the other views can follow leaves every view following
the history. -/
theorem follows_append {doc' : Document} {view' : View}
    (ht : doc.Tracked s.recorded) (hid : doc.id = s.doc.id)
    (hhistory : doc.history = s.doc.history)
    (hfollows : Following s.views s.recorded s.doc.id)
    (hget : s.views.get viewId = some view)
    (hcommit : s.CommitFollowed viewId doc moment view)
    (hx : doc.appendChangesToHistory U moment.undoLevels moment.now view
      = .ok (doc', view')) :
    Following (s.views.insert viewId view')
      (recordedAfter clock s.recorded doc moment view.id) s.doc.id := by
  have hsustains := fun a ha => (hcommit a ha).1
  obtain ⟨ht', hempty', -⟩ := @Document.Tracked.append U clock doc doc'
    s.recorded ht moment view view' hsustains hx
  rcases @Document.append_spec U clock doc doc' s.recorded ht moment view
    view' hsustains hx with
    ⟨-, -, rfl, hrec⟩ | ⟨a, line, selection, ha, hexec, hsound, htext, hrec,
      hdoc, hview⟩
  · rw [hrec, Table.insert_get hget]
    exact hfollows
  rw [hrec] at ht' ⊢
  intro w view₁ hw
  by_cases hwv : w = viewId
  · -- the view that commits is mapped at once
    subst hwv
    rw [Table.get_insert_self] at hw
    injection hw with hw
    subst hw
    have hdocid : doc'.id = s.doc.id := by
      rw [hdoc]
      exact hid
    obtain ⟨selection', state, hsel, -, hne, -⟩ :=
      @Document.about_committing doc s.recorded _ _ _ a ha
    have hcarries := ht.pending selection
    have htext' : doc'.text = doc.text := by
      rw [hdoc]
      rfl
    have hspans := (hcarries.spans hne).1
    rw [← htext'] at hspans
    obtain ⟨hwithin, hget', -⟩ := View.apply_within hspans hview
    rw [← hdocid]
    exact follows_current ht' hempty' hget' hwithin
  · rw [Table.get_insert_ne hwv] at hw
    have hfollow := hfollows w view₁ hw
    refine hfollow.rename fun revision hrevision => ?_
    obtain ⟨hlt, hwithin⟩ := hfollow.of_some hrevision
    have hkept := (hcommit a ha).2
    obtain ⟨selection', state, -, -, -, habout⟩ :=
      @Document.about_committing doc s.recorded _ _ _ a ha
    cases a with
    | commit undoLevels tx selection now =>
        rw [ht.sound.recorded_commit hexec revision, htext]
        rcases hkept with h0 | hothers
        · exact ⟨_, Timeline.renamed_of_zero ht.sound h0 _ hlt, hwithin⟩
        · exact hothers w view₁ hwv hw revision hrevision
    | join tx selection now =>
        obtain ⟨rfl, hpos⟩ := habout
        rw [Document.recorded_join hexec hpos, htext]
        by_cases hcurrent : doc.history.current = revision
        · subst hcurrent
          refine ⟨doc.text, List.getElem?_set_self hlt, ?_⟩
          rcases hkept with hsame | hothers
          · -- the text is the one the view remembers
            rw [(ht.pending selection').turns.unique hsame]
            exact hwithin
          · rw [hhistory] at hrevision
            exact hothers w view₁ hwv hw hrevision
        · rw [List.getElem?_set_ne hcurrent]
          exact ⟨_, getElem?_eq_textAt hlt, hwithin⟩
    | navigate nav => exact absurd habout id

/-- A move that the other views can follow leaves every view following
the history, before the sync. -/
theorem SyncInv.follows_move (h : s.SyncInv) {nav : Navigation}
    {view' : View} {success : Bool} (hget : s.views.get viewId = some view)
    (hcommit : nav.commits = true →
      s.CommitFollowed viewId (s.doc.facing nav) moment view)
    (hmove : s.doc.move U clock moment.undoLevels moment.now view nav
      = .ok (success, doc, view')) :
    (doc.settled success).Tracked
        (Document.recordedMove clock s.recorded s.doc moment view nav)
      ∧ Following (s.views.insert viewId view')
          (Document.recordedMove clock s.recorded s.doc moment view nav)
          s.doc.id
      ∧ doc.id = s.doc.id
      ∧ doc.viewData.All (·.anchor ≤ doc.text.length) := by
  have hsustains : s.doc.SustainsMove s.recorded moment view nav := by
    intro hcommits a ha
    rw [← Document.timeline_facing nav]
    exact (hcommit hcommits a ha).1
  refine ⟨(h.tracked.move hsustains hmove).1, ?_⟩
  obtain ⟨undojoinPending, hfacing⟩ := @Document.facing_eq s.doc nav
  rcases Document.move_spec h.tracked hsustains hmove with
    ⟨hno, -, rfl, rfl⟩ |
    ⟨d, target, selections, viewData, savepoints, hflush, -, -, rfl, -, hview⟩
  · unfold Document.recordedMove
    rw [hno, if_neg (by decide), Table.insert_get hget]
    refine ⟨h.follows, ?_, ?_⟩
    · rw [hfacing]
    · rw [hfacing]
      exact h.viewData
  obtain ⟨-, -, history, changes, oldState, undojoinPending', hsame⟩ :=
    @Document.flush_spec U clock s.doc s.recorded h.tracked moment view view'
      nav d hsustains hflush
  refine ⟨?_, ?_, hview ?_⟩
  · unfold Document.flush at hflush
    unfold Document.recordedMove
    cases hcommits : nav.commits with
    | false =>
        rw [hcommits, if_neg (by decide)] at hflush
        rw [if_neg (by decide)]
        injection hflush with hflush
        injection hflush with _ hsameView
        rw [← hsameView, Table.insert_get hget]
        exact h.follows
    | true =>
        rw [hcommits, if_pos rfl] at hflush
        rw [if_pos rfl]
        refine follows_append (h.tracked.facing nav) ?_ ?_ h.follows hget
          (hcommit hcommits) hflush
        · rw [hfacing]
        · rw [hfacing]
  · show d.id = s.doc.id
    rw [hsame]
  · rw [hsame]
    exact h.viewData

-- == steps

/-- Committing through a view keeps the invariant. -/
theorem SyncInv.append {s s' : Session} (h : s.SyncInv) {moment : Moment}
    {viewId : ViewId}
    (hcommit : ∀ view, s.views.get viewId = some view →
      s.CommitFollowed viewId s.doc moment view)
    (hx : s.append U clock moment viewId = .ok s') : s'.SyncInv := by
  obtain ⟨view, doc, view', hget, happend, rfl⟩ := append_cases hx
  have hcommit := hcommit view hget
  obtain ⟨ht, -, history, changes, oldState, undojoinPending, hsame⟩ :=
    @Document.Tracked.append U clock s.doc doc s.recorded h.tracked moment
      view view' (fun a ha => (hcommit a ha).1) happend
  refine ⟨ht, ?_, ?_⟩
  · have hid : doc.id = s.doc.id := by
      rw [hsame]
    show Following _ _ doc.id
    rw [hid]
    exact follows_append h.tracked rfl rfl h.follows hget hcommit happend
  · show doc.viewData.All (·.anchor ≤ doc.text.length)
    rw [hsame]
    exact h.viewData

/-- Moving through the history keeps the invariant: the view that moves
is synced. -/
theorem SyncInv.navigate (h : s.SyncInv) {nav : Navigation}
    (hcommit : ∀ view, s.views.get viewId = some view →
      nav.commits = true →
      s.CommitFollowed viewId (s.doc.facing nav) moment view)
    (hx : s.exec U clock (.navigate moment viewId nav) = .ok s') :
    s'.SyncInv := by
  obtain ⟨view, success, doc, view', view'', hget, hmove, hsync, rfl⟩ :=
    navigate_cases hx
  obtain ⟨ht, hfollows, hid, hview⟩ :=
    h.follows_move hget (hcommit view hget) hmove
  cases success with
  | false =>
      rw [if_neg (by decide)] at hsync
      injection hsync with hsync
      subst hsync
      refine ⟨ht, ?_, hview⟩
      show Following _ _ doc.id
      rw [hid]
      exact hfollows
  | true =>
      rw [if_pos rfl] at hsync
      have hfollow := hfollows viewId view' Table.get_insert_self
      rw [← hid] at hfollow
      obtain ⟨synced, hsynced, hcurrent, hwithin, -⟩ :=
        @View.syncChanges_spec U view' (doc.settled true) _ ht rfl hfollow
      rw [hsync] at hsynced
      injection hsynced with hsynced
      subst hsynced
      refine ⟨ht, ?_, hview⟩
      rw [← ht.text rfl] at hwithin
      rw [← hid] at hfollows
      have hinsert := hfollows.insert (hcurrent.follows hwithin)
        (w := viewId)
      rw [Table.insert_insert] at hinsert
      exact hinsert

/-- An edit that is made for the text keeps the invariant. -/
theorem SyncInv.apply (h : s.SyncInv) {tx : Transaction}
    (hfits : Timeline.Fits tx s.doc.text) {b : Bool}
    (hx : s.doc.apply U tx viewId = .ok (b, doc)) :
    ({ s with doc := doc } : Session).SyncInv
      ∧ doc.history = s.doc.history ∧ doc.id = s.doc.id := by
  obtain ⟨ht, hhistory, -, hid⟩ := h.tracked.apply hfits hx
  refine ⟨⟨ht, ?_, ?_⟩, hhistory, hid⟩
  · show Following _ _ doc.id
    rw [hid]
    exact h.follows
  · obtain ⟨text, -, hc, -⟩ := hfits.edges
    rcases Document.apply_spec hc hx with ⟨-, rfl⟩ | ⟨selections, viewData,
      savepoints, oldState, changes, rfl, -, hview, -⟩
    · exact h.viewData
    · exact hview h.viewData

/-- A reload keeps the invariant if what it commits can be followed; or
if it discards the history, and no view remembers more of it than the
root. -/
theorem SyncInv.reload (h : s.SyncInv) {tx : Transaction} {lines : Nat}
    {undoreload : Int} (hfits : Timeline.Fits tx s.doc.text)
    (hkeeps : s.KeepsFollowing U (.reload moment viewId tx lines undoreload))
    (hx : s.exec U clock (.reload moment viewId tx lines undoreload)
      = .ok s') : s'.SyncInv := by
  obtain ⟨view, b, applied, doc, view', hget, happly, hcase, hdoc, hviews, -⟩ :=
    reload_cases hx
  obtain ⟨⟨ht, -, hview⟩, hhistory, hid⟩ := h.apply hfits happly
  have hkeeps := hkeeps view b applied hget happly
  have hdone : doc.Tracked s'.recorded
      ∧ Following (s.views.insert viewId view') s'.recorded s.doc.id
      ∧ doc.id = s.doc.id
      ∧ doc.viewData.All (·.anchor ≤ doc.text.length) := by
    cases hsaves : Document.undoreloadSavesUndo lines undoreload with
    | true =>
        rw [hsaves, if_pos rfl] at hcase hkeeps
        obtain ⟨happend, hrec⟩ := hcase
        obtain ⟨ht', -, history, changes, oldState, undojoinPending, hsame⟩ :=
          @Document.Tracked.append U clock applied doc s.recorded ht moment
            view view' (fun a ha => (hkeeps a ha).1) happend
        rw [hrec]
        refine ⟨ht', follows_append ht hid hhistory h.follows hget hkeeps
          happend, ?_, ?_⟩
        · rw [hsame]
          exact hid
        · rw [hsame]
          exact hview
    | false =>
        rw [hsaves, if_neg (by decide)] at hcase hkeeps
        obtain ⟨rfl, rfl, hrec⟩ := hcase
        rw [hrec]
        refine ⟨.of_new (Timeline.sound_start moment.now applied.text) rfl
          rfl rfl, ?_, hid, hview⟩
        rw [Table.insert_get hget]
        intro w view₁ hw
        refine (h.follows w view₁ hw).rename fun revision hrevision => ?_
        obtain ⟨rfl, hwithin⟩ := hkeeps w view₁ hw revision hrevision
        exact ⟨_, rfl, hwithin⟩
  obtain ⟨ht', hfollows, hid', hview'⟩ := hdone
  refine ⟨hdoc ▸ ht'.congr rfl rfl rfl rfl, ?_, ?_⟩
  · rw [hviews, hdoc]
    show Following _ _ doc.id
    rw [hid']
    exact hfollows
  · rw [hdoc]
    exact hview'

/-- A view can be synced with nothing pending, or with nothing to map:
its jumps are within the text of the current revision then. -/
theorem SyncInv.sync {s : Session} (h : s.SyncInv) {w : ViewId}
    {view : View} (hget : s.views.get w = some view)
    (hready : s.doc.changes.isEmpty ∨ view.UpToDate s.doc) :
    ∃ view', view.syncChanges U s.doc = .ok view'
      ∧ view'.Synced s.recorded s.doc
      ∧ view'.Within s.doc.id
          (textAt s.recorded s.doc.history.current).length
      ∧ view'.id = view.id
      ∧ (s.doc.changes.isEmpty ∨ view.Within s.doc.id s.doc.text.length →
          view'.Within s.doc.id s.doc.text.length) := by
  have hfollow := h.follows w view hget
  by_cases he : s.doc.changes.isEmpty
  · obtain ⟨view', hx, hsynced, hwithin, hid⟩ :=
      @View.syncChanges_spec U view s.doc _ h.tracked he hfollow
    refine ⟨view', hx, hsynced, ?_, hid, fun _ => hwithin⟩
    rw [h.tracked.text he]
    exact hwithin
  · have hup := hready.resolve_left he
    obtain ⟨view', hx, hjumps, hid, hget'⟩ :=
      @View.syncChanges_upToDate U view s.doc hup
    have hsame : ∀ n, view.Within s.doc.id n → view'.Within s.doc.id n := by
      intro n hn
      unfold View.Within
      rw [hjumps]
      exact hn
    refine ⟨view', hx, ⟨_, hget', h.tracked.current_lt, rfl⟩,
      hsame _ ?_, hid, fun hor => hsame _ (hor.resolve_left he)⟩
    cases hrev : view.docRevisions.get s.doc.id with
    | none =>
        unfold View.Follows at hfollow
        rw [hrev] at hfollow
        exact View.Within.mono hfollow (Nat.zero_le _)
    | some revision =>
        rw [← hup revision hrev]
        exact (hfollow.of_some hrev).2

/-- Pushing a jump within the text of the current revision keeps the
invariant. -/
theorem SyncInv.pushJump (h : s.SyncInv) {stack : Bool}
    {selection : Selection}
    (hkeeps : s.KeepsFollowing U (.pushJump viewId stack selection))
    (hx : s.exec U clock (.pushJump viewId stack selection) = .ok s') :
    s'.SyncInv := by
  rw [Session.exec] at hx
  obtain ⟨view, hview, hx⟩ := bind_eq_ok.mp hx
  obtain ⟨pushed, hpush, hx⟩ := bind_eq_ok.mp hx
  injection hx with hx
  subst hx
  have hget := view_eq_ok.mp hview
  obtain ⟨hselection, hready⟩ := hkeeps view hget
  have hready' : s.doc.changes.isEmpty ∨ view.UpToDate s.doc :=
    hready.imp_right And.left
  unfold View.pushJump at hpush
  obtain ⟨view', hsync, hpush⟩ := bind_eq_ok.mp hpush
  obtain ⟨position, hposition, hpush⟩ := bind_eq_ok.mp hpush
  injection hpush with hpush
  subst hpush
  obtain ⟨synced, hsynced, hcurrent, hwithin, hid, -⟩ :=
    @SyncInv.sync U s h viewId view hget hready'
  rw [hsync] at hsynced
  injection hsynced with hsynced
  subst hsynced
  have hposition' : s.doc.viewData.get view.id = some position := by
    unfold Document.viewOffset at hposition
    rw [hid] at hposition
    split at hposition
    · next p hp =>
        injection hposition with hposition
        rw [hp, hposition]
    · cases hposition
  have hanchor : position.anchor
      ≤ (textAt s.recorded s.doc.history.current).length := by
    rcases hready with he | ⟨-, hanchor⟩
    · rw [h.tracked.text he]
      exact h.viewData.get hposition'
    · exact hanchor position hposition'
  have hcurrent' : View.Synced s.recorded s.doc
      { view' with
        jumps := view'.jumps.push stack (s.doc.id, selection) position } :=
    hcurrent
  refine ⟨h.tracked, h.follows.insert (hcurrent'.follows ?_), h.viewData⟩
  intro e he hdoc
  rcases View.mem_push e he with he | rfl
  · exact hwithin e he hdoc
  · exact ⟨hselection, hanchor⟩

-- == runs

/-- A step after which every view can follow keeps the invariant. -/
theorem SyncInv.exec {a : Action} (h : s.SyncInv) (hedits : s.Edits a)
    (hkeeps : s.KeepsFollowing U a) (hx : s.exec U clock a = .ok s') :
    s'.SyncInv := by
  cases a with
  | setSelection v selection =>
      obtain ⟨doc, hdoc, hx⟩ := bind_eq_ok.mp hx
      injection hx with hx
      subst hx
      obtain ⟨-, -, -, heq, -⟩ := Document.setSelection_spec hdoc
      rw [heq]
      exact ⟨h.tracked.congr rfl rfl rfl rfl, h.follows, h.viewData⟩
  | apply v tx =>
      obtain ⟨⟨b, doc⟩, hdoc, hx⟩ := bind_eq_ok.mp hx
      injection hx with hx
      subst hx
      exact (h.apply hedits hdoc).1
  | append moment v => exact h.append hkeeps hx
  | undojoin moment v =>
      obtain ⟨s₁, happend, hx⟩ := bind_eq_ok.mp hx
      injection hx with hx
      subst hx
      obtain ⟨ht, hfollows, hview⟩ := h.append hkeeps happend
      exact ⟨ht.congr rfl rfl rfl rfl, hfollows, hview⟩
  | navigate moment v nav => exact h.navigate hkeeps hx
  | setModified modified =>
      injection hx with hx
      subst hx
      cases modified <;>
        exact ⟨h.tracked.congr rfl rfl rfl rfl, h.follows, h.viewData⟩
  | save moment v =>
      obtain ⟨s₁, happend, hx⟩ := bind_eq_ok.mp hx
      injection hx with hx
      subst hx
      obtain ⟨ht, hfollows, hview⟩ := h.append hkeeps happend
      exact ⟨ht.congr rfl rfl rfl rfl, hfollows, hview⟩
  | reload moment v tx lines undoreload =>
      exact h.reload hedits hkeeps hx
  | syncChanges v =>
      obtain ⟨view, hview, hx⟩ := bind_eq_ok.mp hx
      obtain ⟨view', hsync, hx⟩ := bind_eq_ok.mp hx
      injection hx with hx
      subst hx
      have hget := view_eq_ok.mp hview
      obtain ⟨synced, hsynced, hcurrent, hwithin, -⟩ :=
        @SyncInv.sync U s h v view hget (hkeeps view hget)
      rw [hsync] at hsynced
      injection hsynced with hsynced
      subst hsynced
      exact ⟨h.tracked, h.follows.insert (hcurrent.follows hwithin),
        h.viewData⟩
  | pushJump v stack selection => exact h.pushJump hkeeps hx

/-- Where every view follows the history, every sync succeeds. -/
theorem SyncInv.law (h : s.SyncInv) : s.SyncLaw U clock := by
  constructor
  · intro w view hget hready
    obtain ⟨view', hx, -, -, -, hwithin⟩ :=
      @SyncInv.sync U s h w view hget hready
    exact ⟨view', hx, hwithin⟩
  · intro moment w nav view doc view' hget hkeeps hmove
    obtain ⟨ht, hfollows, hid, -⟩ :=
      h.follows_move hget (hkeeps view hget) hmove
    have hfollow := hfollows w view' Table.get_insert_self
    rw [← hid] at hfollow
    obtain ⟨view'', hx, -, hwithin, -⟩ :=
      @View.syncChanges_spec U view' (doc.settled true) _ ht rfl hfollow
    refine ⟨view'', hx, ?_⟩
    rw [← hid]
    exact hwithin

/-- In every run after whose steps every view can follow the history, a
sync succeeds, and leaves the jumps within the text. -/
theorem sync_law {now : Instant} {text : Rope}
    {selections : Table ViewId Selection} {s : Session}
    (hs : Reaches (fun s a => s.Edits a ∧ s.KeepsFollowing U a)
      (exec U clock) (start now text selections) s) :
    s.SyncLaw U clock := by
  have hinv : s.SyncInv := by
    refine hs.invariant (syncInv_start now text selections) ?_
    rintro s a s' h ⟨hedits, hkeeps⟩ hx
    exact h.exec hedits hkeeps hx
  exact hinv.law

/-- A text of one char, open in two views. -/
def openedTwice : Session := start 0 ['a'] [(0, .point 0), (1, .point 0)]

/-- The law after a jump in one view and a commit in the other, which the
first view has not been synced with. -/
theorem sync_law_stale :
    ∃ s : Session, s.doc.history.current = 1
      ∧ (s.views.get 1).map (·.docRevisions.get 0) = some (some 0)
      ∧ s.SyncLaw .ascii Timeline.wide := by
  let jump : Action := .pushJump 1 false (.point 1)
  let insert : Action := .apply 0 (Timeline.prepend ['b'] ['a'])
  let commit : Action := .append ⟨0, 1⟩ 0
  let jumped := after openedTwice jump
  let edited := after jumped insert
  let stale := after edited commit
  have hjump : openedTwice.exec .ascii Timeline.wide jump = .ok jumped := by
    decide
  have hinsert : jumped.exec .ascii Timeline.wide insert = .ok edited := by
    decide
  have hcommit : edited.exec .ascii Timeline.wide commit = .ok stale := by
    decide
  have hkeepsJump : openedTwice.KeepsFollowing .ascii jump := by
    intro view _
    exact ⟨by decide, .inl (by decide)⟩
  have hkeepsCommit : edited.KeepsFollowing .ascii commit := by
    intro view hview a ha
    have hid : ∀ view ∈ edited.views.get 0, view.id = 0 := by
      decide
    rw [hid view hview] at ha
    -- the edit is committed above the root
    let tx := (Transaction.ofChanges edited.doc.changes).withSelection
      (.single 1 2)
    have haction : edited.doc.committing 0 1 0
        = some (.commit 0 tx (.point 0) 1) := by
      decide
    rw [haction] at ha
    injection ha with ha
    subst ha
    let line := edited.doc.timeline edited.recorded
    have hdrop : ∀ h ∈ (line.history.commitRevisionAtTimestamp 0 tx
        ⟨line.text, .point 0⟩ 1).toOption, h.dropCount 0 = 0 := by
      decide
    refine ⟨?_, .inl rfl⟩
    intro h text hh _
    refine Timeline.regraftable_of_zero (hdrop h ?_)
    rw [hh]
    rfl
  exact ⟨stale, by decide, by decide,
    @sync_law .ascii Timeline.wide 0 ['a'] [(0, .point 0), (1, .point 0)]
      stale (.step commit
        (.step insert
          (.step jump .start ⟨trivial, hkeepsJump⟩ hjump)
          ⟨Timeline.fits_prepend _ _, trivial⟩ hinsert)
        ⟨trivial, hkeepsCommit⟩ hcommit)⟩

/-- An edit, committed in one view and synced in the other; then a reload
that cannot be undone. The history is new, and the other view remembers a
revision that is not there. -/
theorem not_sync_law_reload :
    ∃ s, Reaches Edits (exec .ascii Timeline.wide)
        (start 0 ['a'] [(0, .point 0), (1, .point 0)]) s
      ∧ ¬ s.SyncLaw .ascii Timeline.wide := by
  let insert : Action := .apply 0 (Timeline.prepend ['b'] ['a'])
  let commit : Action := .append ⟨0, 1⟩ 0
  let sync : Action := .syncChanges 1
  let reload : Action :=
    .reload ⟨0, 2⟩ 0 (Timeline.prepend ['c'] ['b', 'a']) 1 0
  let s₁ := after openedTwice insert
  let s₂ := after s₁ commit
  let s₃ := after s₂ sync
  let s₄ := after s₃ reload
  have h₁ : openedTwice.exec .ascii Timeline.wide insert = .ok s₁ := by
    decide
  have h₂ : s₁.exec .ascii Timeline.wide commit = .ok s₂ := by
    decide
  have h₃ : s₂.exec .ascii Timeline.wide sync = .ok s₃ := by
    decide
  have h₄ : s₃.exec .ascii Timeline.wide reload = .ok s₄ := by
    decide
  have hinsert : openedTwice.Edits insert := Timeline.fits_prepend _ _
  have hcommitted : s₃.doc.text = ['b', 'a'] := by
    decide
  have hreload : s₃.Edits reload := by
    show Timeline.Fits (Timeline.prepend ['c'] ['b', 'a']) s₃.doc.text
    rw [hcommitted]
    exact Timeline.fits_prepend _ _
  have r₁ : Reaches Edits (exec .ascii Timeline.wide) openedTwice s₁ :=
    .step insert .start hinsert h₁
  have r₂ : Reaches Edits (exec .ascii Timeline.wide) openedTwice s₂ :=
    .step commit r₁ trivial h₂
  have r₃ : Reaches Edits (exec .ascii Timeline.wide) openedTwice s₃ :=
    .step sync r₂ trivial h₃
  have r₄ : Reaches Edits (exec .ascii Timeline.wide) openedTwice s₄ :=
    .step reload r₃ hreload h₄
  refine ⟨s₄, r₄, fun hlaw => ?_⟩
  let stale := (s₄.views.get 1).getD (.new 1 0)
  have hget : s₄.views.get 1 = some stale := by
    decide
  have hempty : s₄.doc.changes.isEmpty := by
    decide
  have hfails : stale.syncChanges .ascii s₄.doc = .error .outOfBounds := by
    decide
  obtain ⟨view', hx, -⟩ := hlaw.sync 1 stale hget (.inl hempty)
  rw [hfails] at hx
  cases hx

end Session

end Zmax
