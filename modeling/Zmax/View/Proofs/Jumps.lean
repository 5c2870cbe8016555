/-
What a view does with its jumps: mapping them through a transaction,
syncing them with the history, pushing one.

`Within` says that the jumps into a document, with the scroll positions
recorded with them, are in a text of so many chars. `Follows` is what a
view needs to sync: the revision it remembers is there, and its jumps
are within that revision's text. Then the sync cannot fail, and leaves
them within the text of the document (`syncChanges_spec`).
-/
import Zmax.View.Proofs.Tracking

namespace Zmax

open Script

variable {U : Unicode}

namespace View

/-- Every jump into the document is within a text of `n` chars. -/
def Within (docId : DocumentId) (n : Nat) (self : View) : Prop :=
  ∀ e ∈ self.jumps.jumps, e.jump.1 = docId →
    e.jump.2.Within n ∧ e.viewPosition.anchor ≤ n

instance (docId : DocumentId) (n : Nat) (self : View) :
    Decidable (self.Within docId n) :=
  inferInstanceAs (Decidable (∀ e ∈ self.jumps.jumps, _ → _ ∧ _))

/-- The revision that a view remembers is there, and its jumps are within
that revision's text; a view that remembers none has only jumped to the
top. -/
def Follows (recorded : List Rope) (docId : DocumentId) (self : View) :
    Prop :=
  match self.docRevisions.get docId with
  | none => self.Within docId 0
  | some revision => revision < recorded.length
      ∧ self.Within docId (textAt recorded revision).length

variable {view view' : View} {doc : Document} {recorded : List Rope}
  {docId : DocumentId}

theorem Within.mono {m n : Nat} (h : view.Within docId m) (hle : m ≤ n) :
    view.Within docId n := by
  intro e he hid
  obtain ⟨hsel, hanchor⟩ := h e he hid
  exact ⟨hsel.mono hle, hanchor.trans hle⟩

theorem within_new (id : ViewId) : (View.new id docId).Within docId 0 := by
  intro e he _
  unfold View.new JumpList.new at he
  rw [List.mem_singleton] at he
  subst he
  refine ⟨?_, Nat.le_refl 0⟩
  intro r hr
  obtain rfl := List.mem_singleton.mp hr
  exact ⟨Nat.le_refl 0, Nat.le_refl 0⟩

/-- Whether a view follows is a matter of what it remembers. -/
theorem follows_of_some {revision : Nat}
    (hget : view.docRevisions.get docId = some revision)
    (hlt : revision < recorded.length)
    (h : view.Within docId (textAt recorded revision).length) :
    view.Follows recorded docId := by
  unfold Follows
  rw [hget]
  exact ⟨hlt, h⟩

theorem Follows.of_some (h : view.Follows recorded docId) {revision : Nat}
    (hget : view.docRevisions.get docId = some revision) :
    revision < recorded.length
      ∧ view.Within docId (textAt recorded revision).length := by
  unfold Follows at h
  rw [hget] at h
  exact h

/-- A view can follow another history if what it remembers names a text
there, with its jumps within. -/
theorem Follows.rename (h : view.Follows recorded docId)
    {recorded' : List Rope}
    (hnames : ∀ revision ∈ view.docRevisions.get docId,
      ∃ t, recorded'[revision]? = some t ∧ view.Within docId t.length) :
    view.Follows recorded' docId := by
  cases hget : view.docRevisions.get docId with
  | none =>
      unfold Follows at h ⊢
      rw [hget] at h ⊢
      exact h
  | some revision =>
      obtain ⟨t, ht, hwithin⟩ := hnames revision hget
      refine follows_of_some hget (List.getElem?_eq_some_iff.mp ht).1 ?_
      rw [textAt_eq ht]
      exact hwithin

-- == mapping

/-- Jumps that a transaction was applied to are within the text it
leads to, wherever they were. -/
theorem apply_within {tx : Transaction} {t : Rope}
    (htx : tx.Spans t doc.text) (hx : view.apply U tx doc = .ok view') :
    view'.Within doc.id doc.text.length
      ∧ view'.docRevisions.get doc.id = some doc.history.current
      ∧ view'.id = view.id := by
  unfold View.apply at hx
  obtain ⟨jumps, hjumps, hx⟩ := bind_eq_ok.mp hx
  injection hx with hx
  subst hx
  refine ⟨?_, Table.get_insert_self, rfl⟩
  unfold JumpList.apply at hjumps
  obtain ⟨entries, hentries, hjumps⟩ := bind_eq_ok.mp hjumps
  injection hjumps with hjumps
  subst hjumps
  intro e he hid
  obtain ⟨e₀, -, hfollow⟩ := exists_of_mapM hentries e he
  unfold JumpEntry.follow at hfollow
  split at hfollow
  · obtain ⟨selection, hsel, hfollow⟩ := bind_eq_ok.mp hfollow
    obtain ⟨position, hpos, hfollow⟩ := bind_eq_ok.mp hfollow
    injection hfollow with hfollow
    subst hfollow
    refine ⟨Document.mapSelection_within hsel, ?_⟩
    obtain ⟨anchor, hanchor, hpos⟩ := bind_eq_ok.mp hpos
    injection hpos with hpos
    subst hpos
    have hle := ChangeSet.mapPos_le hanchor
    rwa [htx.1.new, htx.2.lenAfter] at hle
  · next hne =>
      injection hfollow with hfollow
      subst hfollow
      exact absurd hid hne

/-- Jumps within a text can be mapped through a transaction that starts
from it. -/
theorem apply_ok {tx : Transaction} {t : Rope} (htx : tx.Spans t doc.text)
    (h : view.Within doc.id t.length) :
    ∃ view', view.apply U tx doc = .ok view' := by
  have hentries : ∀ e ∈ view.jumps.jumps, ∃ e',
      JumpEntry.follow U tx doc e = .ok e' := by
    intro e he
    unfold JumpEntry.follow
    split
    · next hid =>
        obtain ⟨hsel, hanchor⟩ := h e he hid
        obtain ⟨selection, hselection⟩ :=
          @Document.mapSelection_ok U _ _ _ htx.2 _ hsel
        obtain ⟨anchor, hmap, -⟩ :=
          @ChangeSet.mapPos_ok U _ _ _ htx.1 htx.2 _ hanchor .before
        unfold Document.mapOffset
        rw [hselection, ok_bind, hmap]
        exact ⟨_, rfl⟩
    · exact ⟨e, rfl⟩
  obtain ⟨entries, hentries⟩ := mapM_ok hentries
  unfold View.apply JumpList.apply
  rw [hentries]
  exact ⟨_, rfl⟩

-- == syncing

/-- A view that remembers the current revision, or none, has nothing to
map. -/
def UpToDate (doc : Document) (self : View) : Prop :=
  ∀ revision ∈ self.docRevisions.get doc.id,
    revision = doc.history.current

/-- Syncing an up-to-date view leaves its jumps as they are. -/
theorem syncChanges_upToDate (h : view.UpToDate doc) :
    ∃ view', view.syncChanges U doc = .ok view'
      ∧ view'.jumps = view.jumps ∧ view'.id = view.id
      ∧ view'.docRevisions.get doc.id = some doc.history.current := by
  unfold syncChanges changesToSync
  dsimp only
  cases hget : view.docRevisions.get doc.id with
  | none =>
      dsimp only
      exact ⟨_, rfl, rfl, rfl, Table.get_insert_self⟩
  | some revision =>
      have hcurrent := h revision hget
      dsimp only
      rw [if_pos hcurrent]
      exact ⟨view, rfl, rfl, rfl, by rw [hget, hcurrent]⟩

/-- The view remembers a revision with the text of the current one, which
a sync then finds no changes from. -/
def Synced (recorded : List Rope) (doc : Document) (self : View) : Prop :=
  ∃ revision, self.docRevisions.get doc.id = some revision
    ∧ revision < recorded.length
    ∧ textAt recorded revision = textAt recorded doc.history.current

/-- A view that is synced follows the history if its jumps are within the
text of the current revision. -/
theorem Synced.follows (h : view.Synced recorded doc)
    (hwithin : view.Within doc.id
      (textAt recorded doc.history.current).length) :
    view.Follows recorded doc.id := by
  obtain ⟨revision, hget, hlt, htext⟩ := h
  refine follows_of_some hget hlt ?_
  rw [htext]
  exact hwithin

/-- A view that follows the history of a document with nothing pending
can be synced, and has its jumps within the text then. -/
theorem syncChanges_spec (ht : doc.Tracked recorded)
    (he : doc.changes.isEmpty) (hf : view.Follows recorded doc.id) :
    ∃ view', view.syncChanges U doc = .ok view'
      ∧ view'.Synced recorded doc
      ∧ view'.Within doc.id doc.text.length ∧ view'.id = view.id := by
  have htext := ht.text he
  have hr : doc.history.Recorded Transaction.Spans recorded :=
    ht.sound.recorded
  have hcurrent := ht.current_lt
  cases hget : view.docRevisions.get doc.id with
  | none =>
      have hup : view.UpToDate doc := by
        intro revision hrev
        rw [hget] at hrev
        cases hrev
      unfold Follows at hf
      rw [hget] at hf
      obtain ⟨view', hx, hjumps, hid, hget'⟩ := @syncChanges_upToDate U _ _ hup
      have hwithin : view'.Within doc.id 0 := by
        unfold Within
        rw [hjumps]
        exact hf
      exact ⟨view', hx, ⟨_, hget', hcurrent, rfl⟩,
        hwithin.mono (Nat.zero_le _), hid⟩
  | some revision =>
      obtain ⟨hlt, hwithin⟩ := hf.of_some hget
      unfold syncChanges changesToSync
      rw [hget]
      dsimp only
      by_cases hsame : revision = doc.history.current
      · rw [if_pos hsame]
        refine ⟨view, rfl, ⟨revision, hget, hlt, by rw [hsame]⟩, ?_, rfl⟩
        rw [hsame, htext] at hwithin
        exact hwithin
      rw [if_neg hsame]
      have hrevision : revision < doc.history.revisions.length := by
        rw [← hr.length]
        exact hlt
      obtain ⟨otx, hsince, hspec⟩ := History.changesSince_spec hr
        Transaction.chains_spans hrevision
      rw [hsince, ok_bind]
      cases otx with
      | none =>
          -- no changes: the texts are the same
          have hspec : textAt recorded revision
              = textAt recorded doc.history.current := hspec
          refine ⟨view, rfl, ⟨revision, hget, hlt, hspec⟩, ?_, rfl⟩
          rw [hspec, htext] at hwithin
          exact hwithin
      | some tx =>
          have htx : tx.Spans (textAt recorded revision) doc.text := by
            rw [← htext]
            exact hspec
          obtain ⟨view', hx⟩ := @apply_ok U view doc tx _ htx hwithin
          obtain ⟨hwithin', hget', hid⟩ := apply_within htx hx
          exact ⟨view', hx, ⟨_, hget', hcurrent, rfl⟩, hwithin', hid⟩

-- == pushing

/-- A push keeps some of the entries, and adds at most its own. -/
theorem mem_push {list : JumpList} {stack : Bool} {jump : Jump}
    {position : ViewPosition} :
    ∀ e ∈ (list.push stack jump position).jumps,
      e ∈ list.jumps ∨ e = ⟨jump, position⟩ := by
  have hroom : ∀ e ∈ (list.makeRoom stack jump).1.jumps,
      e ∈ list.jumps := by
    intro e he
    unfold JumpList.makeRoom at he
    split at he
    · exact List.mem_of_mem_take he
    · split at he
      · exact he
      · split at he <;> exact List.mem_of_mem_eraseIdx he
  intro e he
  unfold JumpList.push JumpList.pushImpl at he
  dsimp only at he
  split at he
  · exact .inl (hroom e he)
  · rcases List.mem_append.mp he with he | he
    · exact .inl (hroom e (List.mem_of_mem_drop he))
    · exact .inr (List.mem_singleton.mp he)

end View

end Zmax
