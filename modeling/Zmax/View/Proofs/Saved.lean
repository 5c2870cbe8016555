/-
The law of `isModified` over whole runs: an unmodified buffer shows the
text that was saved.

The saved state is remembered as the number of a revision. The law holds
as long as that number names no revision, or one with the saved text
(`Names`); what changes the meaning of a number is a commit, by the trim
or by making the revision of that number, a join into that revision, and
`:set modified`.
-/
import Zmax.View.Proofs.Tracking

namespace Zmax

open Reach

variable {U : Unicode} {clock : Clock}

/-- If there is a revision of this number, then this is its text. -/
def Names (recorded : List Rope) (number : Nat) (text : Rope) : Prop :=
  number < recorded.length → textAt recorded number = text

instance (recorded : List Rope) (number : Nat) (text : Rope) :
    Decidable (Names recorded number text) :=
  inferInstanceAs (Decidable (_ → _))

/-- A step of the timeline that leaves the number of the saved revision
with the saved text: a commit that renames it to no text or to that, a
join that leaves the text as it is or is into another revision. -/
def Timeline.KeepsSaved (s : Timeline) (number : Nat) (saved : Rope) :
    Action → Prop
  | .commit undoLevels tx _ _ => ∀ text, tx.Turns s.text text →
      ∀ t ∈ s.renamed undoLevels text number, t = saved
  | .join tx _ _ => tx.Turns s.text s.text ∨ number ≠ s.history.current
  | .navigate _ => True

/-- The number of the root is left alone where the root keeps the saved
text. -/
theorem Timeline.keepsSaved_root {s : Timeline} {undoLevels : Nat}
    {tx : Transaction} {selection : Selection} {now : Instant}
    {saved : Rope} (h : textAt s.recorded
      (s.history.survivorParent (s.history.surplus undoLevels)) = saved) :
    s.KeepsSaved 0 saved (.commit undoLevels tx selection now) := by
  intro text _ t ht
  injection ht with ht
  exact ht.symm.trans h

/-- A number keeps its name when a revision is moved to another text, if
it is another revision's, or the text the same. -/
theorem Names.set {recorded : List Rope} {number k : Nat}
    {saved text : Rope} (h : Names recorded number saved)
    (hk : k < recorded.length)
    (hor : text = textAt recorded k ∨ number ≠ k) :
    Names (recorded.set k text) number saved := by
  intro hlt
  rw [List.length_set] at hlt
  rw [← h hlt]
  by_cases hnk : k = number
  · subst hnk
    rw [textAt_set_self hk]
    exact hor.resolve_right fun hne => hne rfl
  · exact textAt_set_ne hnk text

namespace Session

/-- The runs: edits are made for the text, and a reload's for the file. -/
def Edits (s : Session) : Action → Prop
  | .apply _ transaction => Timeline.Fits transaction s.doc.text
  | .reload _ _ transaction _ _ => Timeline.Fits transaction s.doc.text
  | _ => True

/-- Committing what is pending in a document keeps the history recorded,
and the number of the saved revision with the saved text. -/
def CommitKeeps (s : Session) (doc : Document) (moment : Moment)
    (view : View) : Prop :=
  ∀ a ∈ doc.committing moment.undoLevels moment.now view.id,
    (doc.timeline s.recorded).Sustains a
    ∧ (doc.timeline s.recorded).KeepsSaved doc.lastSavedRevision s.saved a

/-- A step that keeps the number of the saved revision with the saved
text. -/
def KeepsSaved (U : Unicode) (s : Session) : Action → Prop
  | .append moment viewId | .undojoin moment viewId => ∀ view,
      s.views.get viewId = some view →
      s.CommitKeeps s.doc moment view
  | .navigate moment viewId nav => ∀ view,
      s.views.get viewId = some view → nav.commits = true →
      s.CommitKeeps (s.doc.facing nav) moment view
  | .setModified true =>
      Names s.recorded (s.doc.history.current + 1) s.saved
  | .setModified false =>
      textAt s.recorded s.doc.history.current = s.doc.text
  | .save moment viewId => ∀ view, s.views.get viewId = some view →
      ∀ a ∈ s.doc.committing moment.undoLevels moment.now view.id,
        (s.doc.timeline s.recorded).Sustains a
  | .reload moment viewId transaction _ _ => ∀ view b doc,
      s.views.get viewId = some view →
      s.doc.apply U transaction view.id = .ok (b, doc) →
      ∀ a ∈ doc.committing moment.undoLevels moment.now view.id,
        (doc.timeline s.recorded).Sustains a
  | .setSelection _ _ | .apply _ _ | .syncChanges _ | .pushJump _ _ _ =>
      True

/-- The invariant: the document is tracked, and the number of the saved
revision names the saved text. -/
structure SavedInv (s : Session) : Prop where
  tracked : s.doc.Tracked s.recorded
  names : Names s.recorded s.doc.lastSavedRevision s.saved

/-- An unmodified buffer shows the text that was saved. -/
def SavedLaw (s : Session) : Prop :=
  s.doc.isModified = false → s.doc.text = s.saved

variable {s s' : Session} {moment : Moment} {viewId : ViewId}

theorem SavedInv.law (h : s.SavedInv) : s.SavedLaw := by
  intro hmod
  unfold Document.isModified at hmod
  simp only [Bool.or_eq_false_iff, bne_eq_false_iff_eq,
    Bool.not_eq_false'] at hmod
  obtain ⟨hcurrent, hempty⟩ := hmod
  have hlt := h.tracked.current_lt
  rw [← h.tracked.text hempty, hcurrent]
  exact h.names (hcurrent ▸ hlt)

theorem savedInv_start (now : Instant) (text : Rope)
    (selections : Table ViewId Selection) :
    (start now text selections).SavedInv :=
  ⟨.of_new (Timeline.sound_start now text) rfl rfl rfl, fun _ => rfl⟩

-- == committing

/-- The current revision names the text right after a commit. -/
theorem names_current {doc : Document} {recorded : List Rope}
    (ht : doc.Tracked recorded) (he : doc.changes.isEmpty) :
    Names recorded doc.history.current doc.text := fun _ => ht.text he

/-- A commit that keeps the saved text keeps its number's name. -/
theorem names_append {s : Session} {doc doc' : Document}
    {moment : Moment} {view view' : View} (ht : doc.Tracked s.recorded)
    (hnames : Names s.recorded doc.lastSavedRevision s.saved)
    (hkeeps : s.CommitKeeps doc moment view)
    (hx : doc.appendChangesToHistory U moment.undoLevels moment.now view
      = .ok (doc', view')) :
    Names (recordedAfter clock s.recorded doc moment view.id)
      doc.lastSavedRevision s.saved := by
  rcases @Document.append_spec U clock doc doc' s.recorded ht moment view
    view' (fun a ha => (hkeeps a ha).1) hx with
    ⟨-, -, -, hrec⟩ | ⟨a, timeline, selection, ha, hexec, -, htext, hrec, -, -⟩
  · rw [hrec]
    exact hnames
  rw [hrec]
  have hkept := (hkeeps a ha).2
  obtain ⟨selection', state, -, -, -, habout⟩ :=
    @Document.about_committing doc s.recorded _ _ _ a ha
  cases a with
  | commit undoLevels tx selection now =>
      obtain rfl : tx = _ := habout
      intro hlt
      refine hkept doc.text (ht.pending selection').turns _ ?_
      rw [← htext, ← ht.sound.recorded_commit hexec]
      exact getElem?_eq_textAt hlt
  | join tx selection now =>
      obtain ⟨rfl, hpos⟩ := habout
      rw [Document.recorded_join hexec hpos, htext]
      refine hnames.set ht.current_lt ?_
      rcases hkept with hsame | hne
      · exact .inl ((ht.pending selection').turns.unique hsame)
      · exact .inr hne
  | navigate nav => exact absurd habout id

/-- Committing keeps the invariant. -/
theorem SavedInv.append {s s' : Session} (h : s.SavedInv)
    {moment : Moment} {viewId : ViewId}
    (hkeeps : ∀ view, s.views.get viewId = some view →
      s.CommitKeeps s.doc moment view)
    (hx : s.append U clock moment viewId = .ok s') :
    s'.SavedInv := by
  obtain ⟨view, doc, view', hview, happend, rfl⟩ := append_cases hx
  have hkeeps := hkeeps view hview
  obtain ⟨ht, -, history, changes, oldState, undojoinPending, hsame⟩ :=
    @Document.Tracked.append U clock s.doc doc s.recorded h.tracked moment
      view view' (fun a ha => (hkeeps a ha).1) happend
  refine ⟨ht, ?_⟩
  show Names _ doc.lastSavedRevision s.saved
  rw [hsame]
  exact names_append h.tracked h.names hkeeps happend

/-- Committing and then marking the current revision saves the text,
whatever the number named before. -/
theorem SavedInv.save (h : s.SavedInv)
    (hsustains : ∀ view, s.views.get viewId = some view →
      ∀ a ∈ s.doc.committing moment.undoLevels moment.now view.id,
        (s.doc.timeline s.recorded).Sustains a)
    (hx : s.exec U clock (.save moment viewId) = .ok s') : s'.SavedInv := by
  rw [exec] at hx
  obtain ⟨s₁, hflush, hx⟩ := bind_eq_ok.mp hx
  injection hx with hx
  subst hx
  obtain ⟨view, doc, view', hview, happend, rfl⟩ := append_cases hflush
  obtain ⟨ht, hempty, -⟩ :=
    @Document.Tracked.append U clock s.doc doc s.recorded h.tracked moment
      view view' (hsustains view hview) happend
  exact ⟨ht.congr rfl rfl rfl rfl, names_current ht hempty⟩

/-- Moving through the history keeps the invariant. -/
theorem SavedInv.navigate (h : s.SavedInv) {nav : Navigation}
    (hkeeps : ∀ view, s.views.get viewId = some view →
      nav.commits = true → s.CommitKeeps (s.doc.facing nav) moment view)
    (hx : s.exec U clock (.navigate moment viewId nav) = .ok s') :
    s'.SavedInv := by
  obtain ⟨view, success, doc, view', view'', hview, hmove, -, rfl⟩ :=
    navigate_cases hx
  have hkeeps := hkeeps view hview
  have hsustains : s.doc.SustainsMove s.recorded moment view nav := by
    intro hcommits a ha
    rw [← Document.timeline_facing nav]
    exact (hkeeps hcommits a ha).1
  obtain ⟨ht, hlast⟩ := h.tracked.move hsustains hmove
  refine ⟨ht, ?_⟩
  have hlast' : (doc.settled success).lastSavedRevision
      = s.doc.lastSavedRevision := by
    rw [← hlast]
    cases success <;> rfl
  obtain ⟨undojoinPending, hfacing⟩ := @Document.facing_eq s.doc nav
  have hnames : Names s.recorded (s.doc.facing nav).lastSavedRevision
      s.saved := by
    rw [hfacing]
    exact h.names
  show Names (Document.recordedMove clock s.recorded s.doc moment view nav)
    (doc.settled success).lastSavedRevision s.saved
  rw [hlast']
  unfold Document.recordedMove
  cases hcommits : nav.commits with
  | false =>
      rw [if_neg (by decide)]
      exact h.names
  | true =>
      rw [if_pos rfl]
      rcases Document.move_spec h.tracked hsustains hmove with
        ⟨hno, -⟩ | ⟨d, -, -, -, -, hflush, -⟩
      · rw [hcommits] at hno
        cases hno
      · unfold Document.flush at hflush
        rw [hcommits, if_pos rfl] at hflush
        have := @names_append U clock s (s.doc.facing nav) d moment view
          view' (h.tracked.facing nav) hnames (hkeeps hcommits) hflush
        rw [hfacing] at this ⊢
        exact this

/-- A reload marks the text it leaves as saved. -/
theorem SavedInv.reload (h : s.SavedInv) {tx : Transaction} {lines : Nat}
    {undoreload : Int} (hfits : Timeline.Fits tx s.doc.text)
    (hsustains : ∀ view b doc, s.views.get viewId = some view →
      s.doc.apply U tx view.id = .ok (b, doc) →
      ∀ a ∈ doc.committing moment.undoLevels moment.now view.id,
        (doc.timeline s.recorded).Sustains a)
    (hx : s.exec U clock (.reload moment viewId tx lines undoreload)
      = .ok s') : s'.SavedInv := by
  obtain ⟨view, b, applied, doc, view', hview, happly, hcase, hdoc, -, hsaved⟩ :=
    reload_cases hx
  obtain ⟨ht, -⟩ := h.tracked.apply hfits happly
  have hdone : doc.Tracked s'.recorded ∧ doc.changes.isEmpty := by
    split at hcase
    · obtain ⟨happend, hrec⟩ := hcase
      obtain ⟨ht', hempty, -⟩ :=
        @Document.Tracked.append U clock applied doc s.recorded ht moment
          view view' (hsustains view b applied hview happly) happend
      rw [hrec]
      exact ⟨ht', hempty⟩
    · obtain ⟨rfl, -, hrec⟩ := hcase
      rw [hrec]
      exact ⟨.of_new (Timeline.sound_start moment.now applied.text) rfl rfl
        rfl, rfl⟩
  obtain ⟨ht', hempty⟩ := hdone
  refine ⟨hdoc ▸ ht'.congr rfl rfl rfl rfl, ?_⟩
  rw [hsaved, hdoc]
  exact names_current ht' hempty

-- == runs

/-- A step that keeps the number of the saved revision with the saved
text keeps the invariant. -/
theorem SavedInv.exec {a : Action} (h : s.SavedInv) (hedits : s.Edits a)
    (hkeeps : s.KeepsSaved U a) (hx : s.exec U clock a = .ok s') :
    s'.SavedInv := by
  cases a with
  | setSelection v selection =>
      obtain ⟨doc, hdoc, hx⟩ := bind_eq_ok.mp hx
      injection hx with hx
      subst hx
      obtain ⟨-, -, -, heq, -⟩ := Document.setSelection_spec hdoc
      refine ⟨h.tracked.congr ?_ ?_ ?_ ?_, ?_⟩ <;> rw [heq]
      exact h.names
  | apply v tx =>
      obtain ⟨⟨b, doc⟩, hdoc, hx⟩ := bind_eq_ok.mp hx
      injection hx with hx
      subst hx
      obtain ⟨ht, -, hlast, -⟩ := h.tracked.apply hedits hdoc
      refine ⟨ht, ?_⟩
      show Names s.recorded doc.lastSavedRevision s.saved
      rw [hlast]
      exact h.names
  | append moment v => exact h.append hkeeps hx
  | undojoin moment v =>
      obtain ⟨s₁, happend, hx⟩ := bind_eq_ok.mp hx
      injection hx with hx
      subst hx
      obtain ⟨ht, hnames⟩ := h.append hkeeps happend
      exact ⟨ht.congr rfl rfl rfl rfl, hnames⟩
  | navigate moment v nav => exact h.navigate hkeeps hx
  | setModified modified =>
      injection hx with hx
      subst hx
      refine ⟨h.tracked.congr ?_ ?_ ?_ ?_, ?_⟩
      all_goals cases modified <;> try rfl
      · exact fun _ => hkeeps
      · exact hkeeps
  | save moment v => exact h.save hkeeps hx
  | reload moment v tx lines undoreload =>
      exact h.reload hedits hkeeps hx
  | syncChanges v =>
      obtain ⟨view, -, hx⟩ := bind_eq_ok.mp hx
      obtain ⟨view', -, hx⟩ := bind_eq_ok.mp hx
      injection hx with hx
      subst hx
      exact ⟨h.tracked, h.names⟩
  | pushJump v stack selection =>
      obtain ⟨view, -, hx⟩ := bind_eq_ok.mp hx
      obtain ⟨view', -, hx⟩ := bind_eq_ok.mp hx
      injection hx with hx
      subst hx
      exact ⟨h.tracked, h.names⟩

/-- In every run whose steps keep the number of the saved revision with
the saved text, an unmodified buffer shows that text. -/
theorem saved_law {now : Instant} {text : Rope}
    {selections : Table ViewId Selection} {s : Session}
    (hs : Reaches (fun s a => s.Edits a ∧ s.KeepsSaved U a)
      (exec U clock) (start now text selections) s) : s.SavedLaw := by
  have hinv : s.SavedInv := by
    refine hs.invariant (savedInv_start now text selections) ?_
    rintro s a s' h ⟨hedits, hkeeps⟩ hx
    exact h.exec hedits hkeeps hx
  exact hinv.law

/-- Where a step leads, if it does not fail. -/
def after (s : Session) (a : Action) : Session :=
  match s.exec .ascii Timeline.wide a with
  | .ok s' => s'
  | .error _ => s

/-- A text of one char, open in one view with the cursor at the start. -/
def opened : Session := start 0 ['a'] [(0, .point 0)]

/-- The law after an edit and an undo: the buffer is not modified. -/
theorem saved_law_undo :
    ∃ s : Session, s.doc.isModified = false
      ∧ s.doc.history.revisions.length = 2 ∧ s.SavedLaw := by
  let insert : Action := .apply 0 (Timeline.prepend ['b'] ['a'])
  let undo : Action := .navigate ⟨0, 1⟩ 0 .undo
  let edited := after opened insert
  let undone := after edited undo
  have hinsert : opened.exec .ascii Timeline.wide insert = .ok edited := by
    decide +kernel
  have hundo : edited.exec .ascii Timeline.wide undo = .ok undone := by
    decide +kernel
  have hkeeps : edited.KeepsSaved .ascii undo := by
    intro view hview _ a ha
    have hopened : edited.views.get 0 = some (.new 0 0) := by
      decide +kernel
    rw [hopened] at hview
    injection hview with hview
    subst hview
    -- the edit is committed above the root
    let tx := (Transaction.ofChanges edited.doc.changes).withSelection
      (.single 1 2)
    have hcommit : (edited.doc.facing .undo).committing 0 1 0
        = some (.commit 0 tx (.point 0) 1) := by
      decide +kernel
    have hadd : a ∈ (edited.doc.facing .undo).committing 0 1 0 := ha
    rw [hcommit] at hadd
    injection hadd with hadd
    subst hadd
    let line := (edited.doc.facing .undo).timeline edited.recorded
    have hdrop : ∀ h ∈ (line.history.commitRevisionAtTimestamp 0 tx
        ⟨line.text, .point 0⟩ 1).toOption, h.dropCount 0 = 0 := by
      decide +kernel
    have hnumber : (edited.doc.facing .undo).lastSavedRevision = 0 := by
      decide +kernel
    have hroot : textAt line.recorded
        (line.history.survivorParent (line.history.surplus 0))
        = edited.saved := by
      decide +kernel
    constructor
    · intro h text hh _
      refine Timeline.regraftable_of_zero (hdrop h ?_)
      rw [hh]
      rfl
    · rw [hnumber]
      exact Timeline.keepsSaved_root hroot
  exact ⟨undone, by decide +kernel, by decide +kernel,
    @saved_law .ascii Timeline.wide 0 ['a'] [(0, .point 0)] undone
      (.step undo (.step insert .start ⟨Timeline.fits_prepend _ _, trivial⟩
        hinsert) ⟨trivial, hkeeps⟩ hundo)⟩

/-- An edit, saved; then `:undojoin` and another edit, which is merged
into the saved revision: the buffer is not modified, but shows text that
was never saved. -/
theorem not_saved_law_undojoin :
    ∃ s, Reaches Edits (exec .ascii Timeline.wide)
        (start 0 ['a'] [(0, .point 0)]) s ∧ ¬ s.SavedLaw := by
  let insert : Action := .apply 0 (Timeline.prepend ['b'] ['a'])
  let save : Action := .save ⟨0, 1⟩ 0
  let join : Action := .undojoin ⟨0, 2⟩ 0
  let again : Action := .apply 0 (Timeline.prepend ['c'] ['b', 'a'])
  let commit : Action := .append ⟨0, 3⟩ 0
  let s₁ := after opened insert
  let s₂ := after s₁ save
  let s₃ := after s₂ join
  let s₄ := after s₃ again
  have h₁ : opened.exec .ascii Timeline.wide insert = .ok s₁ := by
    decide +kernel
  have h₂ : s₁.exec .ascii Timeline.wide save = .ok s₂ := by
    decide +kernel
  have h₃ : s₂.exec .ascii Timeline.wide join = .ok s₃ := by
    decide +kernel
  have h₄ : s₃.exec .ascii Timeline.wide again = .ok s₄ := by
    decide +kernel
  have h₅ : s₄.exec .ascii Timeline.wide commit = .ok (after s₄ commit) := by
    decide +kernel
  have hinsert : opened.Edits insert := Timeline.fits_prepend _ _
  have hjoined : s₃.doc.text = ['b', 'a'] := by
    decide +kernel
  have hagain : s₃.Edits again := by
    show Timeline.Fits (Timeline.prepend ['c'] ['b', 'a']) s₃.doc.text
    rw [hjoined]
    exact Timeline.fits_prepend _ _
  have r₁ : Reaches Edits (exec .ascii Timeline.wide) opened s₁ :=
    .step insert .start hinsert h₁
  have r₂ : Reaches Edits (exec .ascii Timeline.wide) opened s₂ :=
    .step save r₁ trivial h₂
  have r₃ : Reaches Edits (exec .ascii Timeline.wide) opened s₃ :=
    .step join r₂ trivial h₃
  have r₄ : Reaches Edits (exec .ascii Timeline.wide) opened s₄ :=
    .step again r₃ hagain h₄
  have r₅ : Reaches Edits (exec .ascii Timeline.wide) opened
      (after s₄ commit) := .step commit r₄ trivial h₅
  have hmodified : (after s₄ commit).doc.isModified = false := by
    decide +kernel
  have htext : (after s₄ commit).doc.text ≠ (after s₄ commit).saved := by
    decide +kernel
  exact ⟨after s₄ commit, r₅, fun hlaw => htext (hlaw hmodified)⟩

end Session

end Zmax
