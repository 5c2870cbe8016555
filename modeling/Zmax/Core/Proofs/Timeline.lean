/-
The laws of the history over whole runs.

`Sound R s` is the invariant: the history records the texts of the run
in the sense of `R`, and the current revision's is the text of the
buffer. Every kind of step keeps it under a condition of its own, and
each law is a run lemma for one choice of `R` and of the conditions:

- without a cap and without joins, in the strong sense, if every
  committed transaction can be inverted (`history_law`);
- under any cap, in the weak sense, if every trim finds one text under
  the revisions it reattaches (`trim_usable_iff`);
- with joins, in the strong sense, if nothing hangs on the revision that
  is joined into (`join_coherent`).
-/
import Zmax.Core.Timeline

namespace Zmax

open VersionTree Reach

namespace Transaction

/-- The recorded length is the text's, applying returns true, and gives
the text. -/
def Applies (tx : Transaction) (t u : Rope) : Prop :=
  tx.changes.len = t.length ∧ tx.apply t = .ok (true, u)

theorem Carries.applies {tx : Transaction} {t u : Rope}
    (h : tx.Carries t u) : tx.Applies t u := ⟨h.len, h.turns⟩

end Transaction

namespace Timeline

variable {R : Transaction → Rope → Rope → Prop} {clock : Clock}

/-- A transaction that fits the text leads to a new text, and has an
inversion that leads back; composing with the inversion takes an
operation, or the empty text. -/
theorem Fits.edges {tx : Transaction} {text : Rope} (h : Fits tx text) :
    ∃ new inversion, tx.Carries text new ∧ tx.invert text = .ok inversion
      ∧ inversion.Turns new text
      ∧ (tx.changes.Invertible → inversion.Carries new text) := by
  have hc := h.obtainable.valid.carries h.len
  by_cases hinv : tx.changes.Invertible
  · obtain ⟨i, hi, hci⟩ := ChangeSet.Carries.invert hc hinv
    have hback : Transaction.Carries ⟨i, none⟩ _ text := hci
    refine ⟨_, ⟨i, none⟩, hc, ?_, hback.turns, fun _ => hback⟩
    unfold Transaction.invert
    rw [hi]
    rfl
  · -- the inversion of no operations is skipped by `apply`
    have hnil : tx.changes.changes = [] := by
      by_contra hne
      exact hinv (.inl hne)
    refine ⟨_, ⟨.withCapacity, none⟩, hc, ?_, ?_, fun h => absurd h hinv⟩
    · unfold Transaction.invert
      rw [ChangeSet.invert_of_nil hnil h.len]
      rfl
    · rw [hnil]
      rfl

-- == the invariant

/-- The history records the run. -/
structure Sound (R : Transaction → Rope → Rope → Prop) (s : Timeline) :
    Prop where
  recorded : s.history.Recorded R s.recorded
  text : textAt s.recorded s.history.current = s.text
  uncapped : s.history.maxRevisions = none

theorem sound_start (now : Instant) (text : Rope) :
    Sound R (start now text) := by
  have hroot : ∀ (i : Nat) v, (History.default now).revisions[i]? = some v →
      i = 0 ∧ v.parent = 0 ∧ v.lastChild = none := by
    intro i v hv
    unfold History.default at hv
    rw [List.getElem?_singleton] at hv
    split at hv
    · next h0 =>
        injection hv with hv
        subst hv
        exact ⟨h0, rfl, rfl⟩
    · cases hv
  refine ⟨⟨⟨?_, ?_, ?_, ?_⟩, rfl, Nat.zero_lt_one, ?_⟩, rfl, rfl⟩
  · intro v hv
    exact (hroot 0 v hv).2.1
  · intro i v hv hi
    exact absurd (hroot i v hv).1 (Nat.ne_of_gt hi)
  · intro i v hv hi
    exact absurd (hroot i v hv).1 (Nat.ne_of_gt hi)
  · intro i v hv hi
    exact absurd (hroot i v hv).1 (Nat.ne_of_gt hi)
  · intro i v c hv hc
    rw [(hroot i v hv).2.2] at hc
    cases hc

-- == navigating

/-- Transactions that lead from text to text do so when applied. -/
theorem applyAll_of_path {txs : List Transaction} {t u : Rope}
    (h : Path Transaction.Turns txs t u) : applyAll txs t = .ok u := by
  induction h with
  | nil t => rfl
  | cons htx _ ih =>
      rw [applyAll, htx, ok_bind]
      exact ih

variable {s : Timeline} {h : History} {texts : List Rope}

/-- Moving through the history keeps the invariant. -/
theorem Sound.navigate (hR : ∀ e s t, R e s t → e.Turns s t) {s' : Timeline}
    {nav : Navigation} (hs : Sound R s)
    (hx : exec clock s (.navigate nav) = .ok s') : Sound R s' := by
  obtain ⟨txs, target, hnav, ht, hp⟩ :=
    History.navigate_spec hs.recorded clock nav
  rw [hs.text] at hp
  rw [exec, hnav, ok_bind] at hx
  dsimp only at hx
  rw [applyAll_of_path (hp.mono hR), ok_bind] at hx
  injection hx with hx
  subst hx
  exact ⟨hs.recorded.move ht, rfl, hs.uncapped⟩

-- == commits

/-- The history before the trim of a commit records the new text, and
the commit is the trim of it. -/
theorem Sound.commit (hs : Sound R s) {tx inversion : Transaction}
    {text : Rope} (hinv : tx.invert s.text = .ok inversion)
    (htx : R tx s.text text)
    (hback : ∀ selection, R (inversion.withSelection selection) text s.text)
    (selection : Selection) (now : Instant) :
    ∃ h, Sound R ⟨h, text, s.recorded ++ [text]⟩
      ∧ (∃ v tx' inversion', h = s.history.push v tx' inversion' now
          ∧ s.history.revisions[s.history.current]? = some v)
      ∧ ∀ undoLevels, s.history.commitRevisionAtTimestamp undoLevels tx
          ⟨s.text, selection⟩ now = h.trimToUndoLevels undoLevels := by
  have hcur := hs.recorded.current
  obtain ⟨v, hi, hv⟩ := History.index_of_lt hcur
  have hpush := hs.recorded.push hv (hs.text.symm ▸ htx)
    (hs.text.symm ▸ hback selection) now
  refine ⟨_, ⟨hpush, ?_, hs.uncapped⟩, ⟨v, _, _, rfl, hv⟩, fun undoLevels => ?_⟩
  · show textAt (s.recorded ++ [text]) s.history.revisions.length = text
    rw [← hs.recorded.length, textAt_append_length]
  · obtain ⟨v', hv', heq⟩ := History.commit_eq hcur
      ⟨s.text, selection⟩ hinv undoLevels now
    rw [hv] at hv'
    injection hv' with hv'
    subst hv'
    exact heq

/-- Without a cap nothing is dropped. -/
theorem dropCount_zero (hmax : h.maxRevisions = none) : h.dropCount 0 = 0 := by
  unfold History.dropCount
  rw [hmax]
  exact if_pos (.inl rfl)

theorem trim_zero (hr : h.Recorded R texts) (hmax : h.maxRevisions = none) :
    h.trimToUndoLevels 0 = .ok h := by
  rw [History.trim_eq hr, dropCount_zero hmax, if_pos rfl]

/-- Where nothing is dropped the recorded texts stay. -/
theorem trimTexts_of_zero (hr : h.Recorded R texts) {undoLevels : Nat}
    (h0 : h.dropCount undoLevels = 0) :
    trimTexts h undoLevels texts = texts := by
  unfold trimTexts
  dsimp only
  rw [h0]
  cases hv : h.revisions[0 + 1]? with
  | none => rfl
  | some v =>
      have hp := hr.tree.parent_lt 1 v hv Nat.zero_lt_one
      have hlen := hr.length
      have hcur := hr.current
      dsimp only
      rw [show v.parent = 0 from by omega]
      cases texts with
      | nil =>
          rw [List.length_nil] at hlen
          omega
      | cons t rest => rfl

/-- A commit without a cap, of a transaction that can be inverted; a join
at the root is one. -/
theorem Sound.exec_commit {s : Timeline}
    (hs : Sound Transaction.Carries s) {tx : Transaction}
    (hfits : Fits tx s.text) (hinv : tx.changes.Invertible)
    (selection : Selection) (now : Instant) :
    ∃ s', exec clock s (.commit 0 tx selection now) = .ok s'
      ∧ (s.history.current = 0 →
          exec clock s (.join tx selection now) = .ok s')
      ∧ Sound Transaction.Carries s'
      ∧ ∃ v tx' inversion', s'.history = s.history.push v tx' inversion' now
          ∧ s.history.revisions[s.history.current]? = some v := by
  obtain ⟨text, inversion, htx, hi, -, hback⟩ := hfits.edges
  obtain ⟨h, hsound, hpush, hcommit⟩ :=
    hs.commit hi htx (fun _ => hback hinv) selection now
  have htrim := trim_zero hsound.recorded hsound.uncapped
  have htexts := trimTexts_of_zero hsound.recorded
    (dropCount_zero hsound.uncapped)
  have happly : tx.apply s.text = .ok (true, text) := htx.turns
  refine ⟨⟨h, text, s.recorded ++ [text]⟩, ?_, fun h0 => ?_, hsound, hpush⟩
  · rw [exec]
    dsimp only
    rw [hcommit, htrim, ok_bind, happly, ok_bind]
    dsimp only at htexts ⊢
    rw [ok_bind, htexts]
    rfl
  · rw [exec, History.mergeLastRevision, if_pos h0, hcommit, htrim, ok_bind,
      happly, ok_bind]
    dsimp only
    rw [if_pos h0]
    rfl

-- == runs without a cap

/-- The runs of a history without a cap and without joins. -/
def Uncapped (s : Timeline) : Action → Prop
  | .commit undoLevels tx _ _ => undoLevels = 0 ∧ Fits tx s.text
  | .join _ _ _ => False
  | .navigate _ => True

/-- Every committed transaction has an operation, unless the text is
empty. -/
def Inverting : Action → Prop
  | .commit _ tx _ _ => tx.changes.Invertible
  | _ => True

/-- The buffer shows the recorded text of the current revision; whatever
the history hands out applies, and leads to the recorded text of the new
current revision; and the changes since any revision compose, and lead
from its text to the current one. -/
structure HistoryLaw (clock : Clock) (s : Timeline) : Prop where
  text : textAt s.recorded s.history.current = s.text
  navigate : ∀ nav, ∃ txs h, s.history.navigate clock nav = .ok (txs, h)
    ∧ h.current < s.recorded.length
    ∧ Path Transaction.Applies txs s.text (textAt s.recorded h.current)
  changesSince : ∀ revision < s.history.revisions.length,
    ∃ otx, s.history.changesSince revision = .ok otx ∧
      match otx with
      | none => textAt s.recorded revision = s.text
      | some tx => tx.Applies (textAt s.recorded revision) s.text

theorem Sound.historyLaw (hs : Sound Transaction.Carries s) :
    HistoryLaw clock s := by
  refine ⟨hs.text, fun nav => ?_, fun revision hrev => ?_⟩
  · obtain ⟨txs, target, hnav, ht, hp⟩ :=
      History.navigate_spec hs.recorded clock nav
    rw [hs.text] at hp
    exact ⟨txs, _, hnav, by rw [hs.recorded.length]; exact ht,
      hp.mono fun _ _ _ h => h.applies⟩
  · obtain ⟨otx, hx, hspec⟩ := History.changesSince_spec hs.recorded
      Transaction.chains_carries hrev
    refine ⟨otx, hx, ?_⟩
    cases otx with
    | none => exact hspec.trans hs.text
    | some tx =>
        rw [← hs.text]
        exact Transaction.Carries.applies hspec

/-- In every run whose commits can be inverted the law of the history
holds. -/
theorem history_law {now : Instant} {text : Rope} {s : Timeline}
    (hs : Reaches (fun s a => Uncapped s a ∧ Inverting a) (exec clock)
      (start now text) s) : HistoryLaw clock s := by
  have hinv : Sound Transaction.Carries s := by
    refine hs.invariant (sound_start now text) ?_
    rintro s a s' hs ⟨hguard, hinverting⟩ hx
    cases a with
    | commit undoLevels tx selection now =>
        obtain ⟨rfl, hfits⟩ := hguard
        obtain ⟨s₁, hs₁, -, hsound, -⟩ :=
          @Sound.exec_commit clock s hs tx hfits hinverting selection now
        rw [hs₁] at hx
        injection hx with hx
        exact hx ▸ hsound
    | join tx selection now => exact absurd hguard id
    | navigate nav => exact hs.navigate (fun _ _ _ h => h.turns) hx
  exact hinv.historyLaw

/-- A clock that can represent every instant. -/
def wide : Clock := ⟨fun _ => true⟩

/-- Insert in front of a text. -/
def prepend (s text : Rope) : Transaction :=
  .ofChanges ((ChangeSet.withCapacity.insert s).retain text.length)

theorem fits_prepend (s text : Rope) : Fits (prepend s text) text := by
  constructor
  · refine @ChangeSet.Obtainable.fromChanges text [(0, 0, some s)] _ ?_
    simp [ChangeSet.fromChanges, ChangeSet.fromChangesLoop, checkedSub]
    rfl
  · show ((ChangeSet.withCapacity.insert s).retain text.length).len = _
    rw [ChangeSet.len_retain, ChangeSet.len_insert]
    exact Nat.zero_add _

theorem invertible_prepend (s text : Rope) (h : text ≠ []) :
    (prepend s text).changes.Invertible := by
  left
  intro hnil
  have hold := congrArg Script.oldLen hnil
  have hwf := (ChangeSet.wellFormed_withCapacity.insert s).retain text.length
  have hlen := (fits_prepend s text).len
  rw [show (prepend s text).changes
      = (ChangeSet.withCapacity.insert s).retain text.length from rfl,
    hwf.old, Script.oldLen_nil] at hold
  exact h (List.length_eq_zero_iff.mp (hlen.symm.trans hold))

/-- The law after two edits and an undo. -/
theorem history_law_undo :
    ∃ s, s.history.current = 1 ∧ HistoryLaw wide s := by
  refine ⟨_, ?_, @history_law wide 0 ['a'] _ (.step (.navigate .undo)
    (.step (.commit 0 (prepend ['c'] ['b', 'a']) (.point 0) 2)
      (.step (.commit 0 (prepend ['b'] ['a']) (.point 0) 1) .start
        ⟨⟨rfl, fits_prepend _ _⟩, invertible_prepend _ _ (by decide)⟩ rfl)
      ⟨⟨rfl, fits_prepend _ _⟩, invertible_prepend _ _ (by decide)⟩ rfl)
    ⟨trivial, trivial⟩ rfl)⟩
  rfl

/-- A commit without operations on the text "a", an edit, and back to the
root: the two inversions do not compose. -/
theorem not_history_law_new :
    ∃ s, Reaches Uncapped (exec wide) (start 0 ['a']) s
      ∧ ¬ HistoryLaw wide s := by
  refine ⟨_, .step (.navigate (.jumpToRevision 0))
    (.step (.commit 0 (prepend ['b'] ['a']) (.point 0) 2)
      (.step (.commit 0 (.new ['a']) (.point 0) 1) .start
        ⟨rfl, .new _, rfl⟩ rfl) ⟨rfl, fits_prepend _ _⟩ rfl) trivial rfl, ?_⟩
  intro hlaw
  obtain ⟨otx, hx, -⟩ := hlaw.changesSince 2 (by decide)
  have herr : (Except.error .assertion : Result (Option Transaction))
      = .ok otx := hx
  cases herr

-- == runs under a cap

/-- The runs of a history under any caps, without joins. -/
def Capped (s : Timeline) : Action → Prop
  | .commit _ tx _ _ => Fits tx s.text
  | .join _ _ _ => False
  | .navigate _ => True

/-- Every revision that a trim leaves without its parent, or that hangs
on the root, starts from one text. -/
def Regraftable (h : History) (texts : List Rope) (undoLevels : Nat) :
    Prop :=
  ∀ (i j : Nat) v w, h.revisions[i]? = some v → h.revisions[j]? = some w →
    h.dropCount undoLevels < i → h.dropCount undoLevels < j →
    v.parent ≤ h.dropCount undoLevels → w.parent ≤ h.dropCount undoLevels →
    textAt texts v.parent = textAt texts w.parent

/-- Where nothing is dropped there is nothing to reattach. -/
theorem regraftable_of_zero {undoLevels : Nat}
    (h0 : h.dropCount undoLevels = 0) : Regraftable h texts undoLevels := by
  intro i j v w _ _ _ _ hv hw
  rw [h0] at hv hw
  rw [Nat.le_zero.mp hv, Nat.le_zero.mp hw]

/-- The trim of every commit is of that kind. -/
def Regrafting (s : Timeline) : Action → Prop
  | .commit undoLevels tx selection now => ∀ h text,
      s.history.commitRevisionAtTimestamp 0 tx ⟨s.text, selection⟩ now
        = .ok h → tx.Turns s.text text →
      Regraftable h (s.recorded ++ [text]) undoLevels
  | _ => True

/-- A history whose revisions apply to the texts of their parents, and
lead back; and from where every later move hands out transactions that
apply, and lead to the text of the revision moved to. -/
structure Usable (clock : Clock) (h : History) (texts : List Rope) :
    Prop where
  recorded : h.Recorded Transaction.Turns texts
  moves : ∀ s, Reaches (fun _ a => ∃ nav, a = .navigate nav) (exec clock)
      ⟨h, textAt texts h.current, texts⟩ s →
    s.text = textAt texts s.history.current ∧
    ∀ nav, ∃ txs h', s.history.navigate clock nav = .ok (txs, h')
      ∧ h'.current < texts.length
      ∧ Path Transaction.Turns txs s.text (textAt texts h'.current)

/-- A recorded history is usable. -/
theorem usable_of_recorded (hr : h.Recorded Transaction.Turns texts)
    (hmax : h.maxRevisions = none) : Usable clock h texts := by
  refine ⟨hr, fun s hs => ?_⟩
  have hinv : Sound Transaction.Turns s ∧ s.recorded = texts := by
    refine hs.invariant (I := fun s => Sound Transaction.Turns s
      ∧ s.recorded = texts) ⟨⟨hr, rfl, hmax⟩, rfl⟩ ?_
    rintro s a s' ⟨hs, htexts⟩ ⟨nav, rfl⟩ hx
    refine ⟨hs.navigate (fun _ _ _ h => h) hx, ?_⟩
    rw [exec, bind_eq_ok] at hx
    obtain ⟨⟨txs, h'⟩, -, hx⟩ := hx
    rw [bind_eq_ok] at hx
    obtain ⟨t, -, hx⟩ := hx
    injection hx with hx
    subst hx
    exact htexts
  obtain ⟨hsound, rfl⟩ := hinv
  refine ⟨hsound.text.symm, fun nav => ?_⟩
  obtain ⟨txs, target, hnav, ht, hp⟩ :=
    History.navigate_spec hsound.recorded clock nav
  rw [hsound.text] at hp
  exact ⟨txs, _, hnav, by rw [hsound.recorded.length]; exact ht, hp⟩

/-- A trim keeps the history usable, with some text for the root. -/
def TrimUsable (clock : Clock) (h : History) (texts : List Rope)
    (undoLevels : Nat) : Prop :=
  ∃ h' root, h.trimToUndoLevels undoLevels = .ok h' ∧
    Usable clock h'
      (History.keptTexts root texts (h.dropCount undoLevels))

/-- What a trim drops leaves some revision on the root, or there is only
the root. -/
private theorem oldest_or_root (hr : h.Recorded R texts) (undoLevels : Nat) :
    (∃ v, h.revisions[h.dropCount undoLevels + 1]? = some v
        ∧ v.parent ≤ h.dropCount undoLevels)
      ∨ (h.dropCount undoLevels = 0 ∧ h.revisions.length = 1) := by
  have hcur := hr.current
  rcases Nat.eq_zero_or_pos (h.dropCount undoLevels) with h0 | hpos
  · rw [h0]
    by_cases hlen : h.revisions.length = 1
    · exact .inr ⟨rfl, hlen⟩
    · obtain ⟨v, -, hv⟩ := @History.index_of_lt h 1 (by omega)
      have := hr.tree.parent_lt 1 v hv Nat.zero_lt_one
      exact .inl ⟨v, hv, by omega⟩
  · exact .inl (hr.oldest (h.dropCount_lt undoLevels hpos))

/-- What the oldest revision kept starts from is the text of the root, if
any is. -/
private theorem regraftable_iff (hr : h.Recorded R texts) (undoLevels : Nat) :
    Regraftable h texts undoLevels ↔ ∃ root, ∀ i v,
      h.revisions[i]? = some v → h.dropCount undoLevels < i →
      v.parent ≤ h.dropCount undoLevels → textAt texts v.parent = root := by
  constructor
  · intro hreg
    rcases oldest_or_root hr undoLevels with ⟨w, hw, hp⟩ | ⟨h0, hlen⟩
    · exact ⟨_, fun i v hv hi hv' =>
        hreg i _ v w hv hw hi (Nat.lt_succ_self _) hv' hp⟩
    · refine ⟨[], fun i v hv hi _ => ?_⟩
      have := (List.getElem?_eq_some_iff.mp hv).1
      omega
  · rintro ⟨root, hroot⟩ i j v w hv hw hi hj hvp hwp
    rw [hroot i v hv hi hvp, hroot j w hw hj hwp]

theorem trimUsable_iff (hr : h.Recorded Transaction.Turns texts)
    (hmax : h.maxRevisions = none) (undoLevels : Nat) :
    TrimUsable clock h texts undoLevels ↔ Regraftable h texts undoLevels := by
  have hturns : ∀ (e : Transaction) s t t', e.Turns s t → e.Turns s t' →
      t = t' := fun _ _ _ _ => Transaction.Turns.unique
  rw [regraftable_iff hr]
  constructor
  · rintro ⟨h', root, htrim, hu⟩
    exact ⟨root, (History.trim_recorded_iff hr hturns undoLevels root).mp
      ⟨h', htrim, hu.recorded⟩⟩
  · rintro ⟨root, hroot⟩
    obtain ⟨h', htrim, hr'⟩ :=
      (History.trim_recorded_iff hr hturns undoLevels root).mpr hroot
    refine ⟨h', root, htrim, usable_of_recorded hr' ?_⟩
    rw [History.trim_eq hr] at htrim
    injection htrim with htrim
    subst htrim
    split <;> exact hmax

/-- A commit whose trim finds one text keeps the invariant. -/
theorem Sound.commit_capped {s : Timeline} (hs : Sound R s)
    (hdet : ∀ e s t t', R e s t → R e s t' → t = t')
    {tx inversion : Transaction} {text : Rope}
    (htx : tx.Carries s.text text) (hi : tx.invert s.text = .ok inversion)
    (hforth : R tx s.text text)
    (hback : ∀ selection, R (inversion.withSelection selection) text s.text)
    {undoLevels : Nat} {selection : Selection} {now : Instant}
    (hreg : Regrafting s (.commit undoLevels tx selection now)) :
    ∃ s', exec clock s (.commit undoLevels tx selection now) = .ok s'
      ∧ Sound R s' ∧ s'.text = text := by
  obtain ⟨h, hsound, ⟨v, tx', inversion', hpush, -⟩, hcommit⟩ :=
    hs.commit hi hforth hback selection now
  have hr := hsound.recorded
  have huncommitted := (hcommit 0).trans (trim_zero hr hsound.uncapped)
  have happly : tx.apply s.text = .ok (true, text) := htx.turns
  have hreg := hreg h text huncommitted htx.turns
  dsimp only at hr
  -- the new revision is the current one, so there is one besides the root
  have hpos : 0 < h.current := by
    rw [hpush]
    exact Nat.zero_lt_of_lt hs.recorded.current
  have hdlt := h.dropCount_lt undoLevels
  obtain ⟨oldest, hold, hp⟩ :
      ∃ v, h.revisions[h.dropCount undoLevels + 1]? = some v
        ∧ v.parent ≤ h.dropCount undoLevels := by
    refine hr.oldest ?_
    omega
  have htexts : trimTexts h undoLevels (s.recorded ++ [text])
      = History.keptTexts (textAt (s.recorded ++ [text]) oldest.parent)
          (s.recorded ++ [text]) (h.dropCount undoLevels) := by
    unfold trimTexts
    dsimp only
    rw [hold]
  obtain ⟨h', htrim, hr'⟩ := (History.trim_recorded_iff hr hdet undoLevels
    (textAt (s.recorded ++ [text]) oldest.parent)).mpr fun i w hw hi hwp =>
      hreg i _ w oldest hw hold hi (Nat.lt_succ_self _) hwp hp
  have hx : exec clock s (.commit undoLevels tx selection now)
      = .ok ⟨h', text, History.keptTexts
          (textAt (s.recorded ++ [text]) oldest.parent)
          (s.recorded ++ [text]) (h.dropCount undoLevels)⟩ := by
    rw [exec]
    dsimp only
    rw [hcommit undoLevels, htrim, ok_bind, happly, ok_bind, huncommitted]
    dsimp only
    rw [ok_bind, htexts]
    rfl
  refine ⟨_, hx, ?_, rfl⟩
  have hcurrent : h'.current = h.current - h.dropCount undoLevels
      ∧ h'.maxRevisions = none := by
    rw [History.trim_eq hr] at htrim
    injection htrim with htrim
    subst htrim
    split
    · next h0 => exact ⟨by omega, hsound.uncapped⟩
    · exact ⟨rfl, hsound.uncapped⟩
  refine ⟨hr', ?_, hcurrent.2⟩
  show textAt (History.keptTexts _ _ _) h'.current = text
  rw [hcurrent.1, History.textAt_keptTexts _ _ _ (by omega),
    Nat.sub_add_cancel (by omega)]
  exact hsound.text

/-- In every run whose commits trim so, and at any cap: a trim keeps the
history usable exactly if the revisions it reattaches start from one
text. -/
theorem trim_usable_iff {now : Instant} {text : Rope} {s : Timeline}
    (hs : Reaches (fun s a => Capped s a ∧ Regrafting s a) (exec clock)
      (start now text) s) (undoLevels : Nat) :
    TrimUsable clock s.history s.recorded undoLevels
      ↔ Regraftable s.history s.recorded undoLevels := by
  have hinv : Sound Transaction.Turns s := by
    refine hs.invariant (sound_start now text) ?_
    rintro s a s' hs ⟨hguard, hreg⟩ hx
    cases a with
    | commit undoLevels tx selection now =>
        obtain ⟨text, inversion, htx, hi, hback, -⟩ := Fits.edges hguard
        obtain ⟨s₁, hs₁, hsound, -⟩ := @Sound.commit_capped _ clock s hs
          (fun _ _ _ _ => Transaction.Turns.unique) tx inversion text htx hi
          htx.turns (fun _ => hback) undoLevels selection now hreg
        rw [hs₁] at hx
        injection hx with hx
        exact hx ▸ hsound
    | join tx selection now => exact absurd hguard id
    | navigate nav => exact hs.navigate (fun _ _ _ h => h) hx
  exact trimUsable_iff hinv.recorded hinv.uncapped undoLevels

/-- Two edits under a cap of two, then a trim to one. -/
theorem trim_usable_iff_linear :
    ∃ s : Timeline, s.history.current = 2
      ∧ (TrimUsable wide s.history s.recorded 1
        ↔ Regraftable s.history s.recorded 1) := by
  refine ⟨_, ?_, @trim_usable_iff wide 0 ['a'] _
    (.step (.commit 2 (prepend ['c'] ['b', 'a']) (.point 0) 2)
      (.step (.commit 2 (prepend ['b'] ['a']) (.point 0) 1) .start
        ⟨fits_prepend _ _, fun h text hh _ => regraftable_of_zero ?_⟩ rfl)
      ⟨fits_prepend _ _, fun h text hh _ => regraftable_of_zero ?_⟩ rfl) 1⟩
  · rfl
  · have hh' : (Except.ok _ : Result History) = .ok h := hh
    injection hh' with hh'
    rw [← hh']
    rfl
  · have hh' : (Except.ok _ : Result History) = .ok h := hh
    injection hh' with hh'
    rw [← hh']
    rfl

/-- Two edits, both undone, and another one from the root: a trim to two
revisions hangs the second edit on the root, where it does not belong. -/
theorem not_trim_usable_branch :
    ∃ s, Reaches Capped (exec wide) (start 0 ['a']) s
      ∧ ¬ TrimUsable wide s.history s.recorded 2 := by
  refine ⟨_, .step (.commit 0 (prepend ['d'] ['a']) (.point 0) 3)
    (.step (.navigate (.jumpToRevision 0))
      (.step (.commit 0 (prepend ['c'] ['b', 'a']) (.point 0) 2)
        (.step (.commit 0 (prepend ['b'] ['a']) (.point 0) 1) .start
          (fits_prepend _ _) rfl) (fits_prepend _ _) rfl) trivial rfl)
    (fits_prepend _ _) rfl, ?_⟩
  rintro ⟨h', root, htrim, hu⟩
  have htrim' : (Except.ok _ : Result History) = .ok h' := htrim
  injection htrim' with htrim'
  subst htrim'
  -- both inversions lead to the text of the root
  have hold : (Except.ok (true, ['b', 'a']) : Result (Bool × Rope))
      = .ok (true, root) := hu.recorded.tree.edge_back 1 _ rfl (by decide)
  have hnew : (Except.ok (true, ['a']) : Result (Bool × Rope))
      = .ok (true, root) := hu.recorded.tree.edge_back 2 _ rfl (by decide)
  rw [← hnew] at hold
  exact absurd hold (by decide)

-- == runs with joins

/-- The runs of a history with joins and without a cap. The clock never
goes back. -/
def Joining (s : Timeline) : Action → Prop
  | .commit undoLevels tx _ now => undoLevels = 0 ∧ Fits tx s.text
      ∧ ∀ v ∈ s.history.revisions, v.timestamp ≤ now
  | .join tx _ now => Fits tx s.text
      ∧ ∀ v ∈ s.history.revisions, v.timestamp ≤ now
  | .navigate _ => True

/-- Transactions have an operation, unless the text is empty; and nothing
but the root is joined into while it has a child, unless the text stays
as it is, or while a later revision is older than the join. -/
def JoinsLeaf (s : Timeline) : Action → Prop
  | .commit _ tx _ _ => tx.changes.Invertible
  | .join tx _ now => tx.changes.Invertible ∧
      (s.history.current = 0 ∨
        ((tx.Turns s.text s.text ∨ ∀ (j : Nat) w,
            s.history.revisions[j]? = some w → 0 < j →
            w.parent ≠ s.history.current)
          ∧ ∀ (j : Nat) w, s.history.current < j →
            s.history.revisions[j]? = some w → now ≤ w.timestamp))
  | .navigate _ => True

/-- Timestamps do not fall with the index. -/
def Chronological (revisions : List Revision) : Prop :=
  ∀ (i j : Nat) v w, i ≤ j → revisions[i]? = some v →
    revisions[j]? = some w → v.timestamp ≤ w.timestamp

/-- Every transaction applies to its parent's text and every inversion
restores it, moving through the history leads to the recorded texts, and
the timestamps are in order. -/
structure JoinLaw (clock : Clock) (s : Timeline) : Prop where
  edges : ∀ (i : Nat) v, s.history.revisions[i]? = some v → 0 < i →
    v.transaction.Applies (textAt s.recorded v.parent) (textAt s.recorded i)
      ∧ v.inversion.Applies (textAt s.recorded i)
          (textAt s.recorded v.parent)
  navigate : ∀ nav, ∃ txs h, s.history.navigate clock nav = .ok (txs, h)
    ∧ h.current < s.recorded.length
    ∧ Path Transaction.Applies txs s.text (textAt s.recorded h.current)
  chronological : Chronological s.history.revisions

/-- A push at the latest time. -/
theorem Chronological.push {h : History} (hc : Chronological h.revisions)
    {v : Revision} {tx inversion : Transaction} {now : Instant}
    (hv : h.revisions[h.current]? = some v)
    (hnow : ∀ w ∈ h.revisions, w.timestamp ≤ now) :
    Chronological (h.push v tx inversion now).revisions := by
  -- a timestamp after the push is an old one at the same index, or `now`
  have hold : ∀ {i : Nat} {w},
      (h.push v tx inversion now).revisions[i]? = some w →
      (i = h.revisions.length ∧ w.timestamp = now)
        ∨ ∃ w₀, h.revisions[i]? = some w₀ ∧ w.timestamp = w₀.timestamp := by
    intro i w hw
    rcases History.getElem?_push hw with ⟨rfl, rfl⟩ | ⟨rfl, rfl⟩ | ⟨-, hw⟩
    · exact .inl ⟨rfl, rfl⟩
    · exact .inr ⟨v, hv, rfl⟩
    · exact .inr ⟨w, hw, rfl⟩
  intro i j w x hij hw hx
  rcases hold hw with ⟨rfl, hwt⟩ | ⟨w₀, hw₀, hwt⟩
  · rcases hold hx with ⟨-, hxt⟩ | ⟨x₀, hx₀, -⟩
    · rw [hwt, hxt]
    · have := (List.getElem?_eq_some_iff.mp hx₀).1
      omega
  · rcases hold hx with ⟨-, hxt⟩ | ⟨x₀, hx₀, hxt⟩
    · rw [hwt, hxt]
      exact hnow w₀ (List.mem_of_getElem? hw₀)
    · rw [hwt, hxt]
      exact hc i j w₀ x₀ hij hw₀ hx₀

/-- A revision moved to the latest time, with no older one after it. -/
theorem Chronological.set {revisions : List Revision}
    (hc : Chronological revisions) {k : Nat} {v' : Revision}
    (hk : k < revisions.length)
    (hnow : ∀ w ∈ revisions, w.timestamp ≤ v'.timestamp)
    (hlater : ∀ (j : Nat) w, k < j → revisions[j]? = some w →
      v'.timestamp ≤ w.timestamp) :
    Chronological (revisions.set k v') := by
  intro i j w x hij hw hx
  by_cases hi : k = i
  · subst hi
    rw [List.getElem?_set_self hk] at hw
    injection hw with hw
    subst hw
    by_cases hj : k = j
    · subst hj
      rw [List.getElem?_set_self hk] at hx
      injection hx with hx
      rw [hx]
    · rw [List.getElem?_set_ne hj] at hx
      exact hlater j x (by omega) hx
  · rw [List.getElem?_set_ne hi] at hw
    by_cases hj : k = j
    · subst hj
      rw [List.getElem?_set_self hk] at hx
      injection hx with hx
      rw [← hx]
      exact hnow w (List.mem_of_getElem? hw)
    · rw [List.getElem?_set_ne hj] at hx
      exact hc i j w x hij hw hx

/-- A join above the root, into a revision on which nothing hangs. -/
theorem Sound.exec_join {s : Timeline} (hs : Sound R s)
    (hR : Transaction.Chains R) (hpos : 0 < s.history.current)
    {tx inversion : Transaction} {text : Rope}
    (htx : tx.Carries s.text text) (hi : tx.invert s.text = .ok inversion)
    (hforth : R tx s.text text)
    (hback : ∀ selection, R (inversion.withSelection selection) text s.text)
    (hleaf : tx.Turns s.text s.text ∨ ∀ (j : Nat) w,
      s.history.revisions[j]? = some w → 0 < j →
      w.parent ≠ s.history.current)
    (selection : Selection) (now : Instant) :
    ∃ s' v', exec clock s (.join tx selection now) = .ok s'
      ∧ Sound R s' ∧ s'.text = text ∧ v'.timestamp = now
      ∧ s'.history.revisions
          = s.history.revisions.set s.history.current v' := by
  have happly : tx.apply s.text = .ok (true, text) := htx.turns
  have hleaf' : text = textAt s.recorded s.history.current ∨
      ∀ (j : Nat) w, s.history.revisions[j]? = some w → 0 < j →
        w.parent ≠ s.history.current := by
    rcases hleaf with h | h
    · left
      rw [hs.text]
      exact htx.turns.unique h
    · exact .inr h
  obtain ⟨v, v', hv, hnow, hmerge, hr⟩ := History.merge_spec hs.recorded
    hR hpos ⟨s.text, selection⟩ hi (hs.text.symm ▸ hforth)
    (hs.text.symm ▸ hback selection) hleaf' 0 now
  refine ⟨⟨{ s.history with
      revisions := s.history.revisions.set s.history.current v' }, text,
      s.recorded.set s.history.current text⟩, v', ?_,
    ⟨hr, ?_, hs.uncapped⟩, rfl, hnow, rfl⟩
  · rw [exec, hmerge, ok_bind, happly, ok_bind]
    dsimp only
    rw [if_neg (Nat.ne_of_gt hpos)]
    rfl
  · show textAt (s.recorded.set s.history.current text) s.history.current
      = text
    refine textAt_set_self ?_ text
    rw [hs.recorded.length]
    exact hs.recorded.current

/-- In every run whose joins are into leaves the revision tree stays
coherent, and the timestamps in order. -/
theorem join_law {now : Instant} {text : Rope} {s : Timeline}
    (hs : Reaches (fun s a => Joining s a ∧ JoinsLeaf s a) (exec clock)
      (start now text) s) : JoinLaw clock s := by
  have hinv : Sound Transaction.Carries s
      ∧ Chronological s.history.revisions := by
    refine hs.invariant (I := fun s => Sound Transaction.Carries s
      ∧ Chronological s.history.revisions) ⟨sound_start now text, ?_⟩ ?_
    · -- the root alone
      intro i j v w _ hv hw
      rw [start, History.default, List.getElem?_singleton] at hv hw
      split at hv
      · split at hw
        · injection hv with hv
          injection hw with hw
          rw [← hv, ← hw]
        · cases hw
      · cases hv
    rintro s a s' ⟨hs, hc⟩ ⟨hguard, hcond⟩ hx
    cases a with
    | commit undoLevels tx selection now =>
        obtain ⟨rfl, hfits, hnow⟩ := hguard
        obtain ⟨s₁, hs₁, -, hsound, v, tx', inversion', hpush, hv⟩ :=
          @Sound.exec_commit clock s hs tx hfits hcond selection now
        rw [hs₁] at hx
        injection hx with hx
        subst hx
        refine ⟨hsound, ?_⟩
        rw [hpush]
        exact hc.push hv hnow
    | join tx selection now =>
        obtain ⟨hfits, hnow⟩ := hguard
        obtain ⟨hinvertible, hcond⟩ := hcond
        rcases Nat.eq_zero_or_pos s.history.current with h0 | hpos
        · obtain ⟨s₁, -, hs₁, hsound, v, tx', inversion', hpush, hv⟩ :=
            @Sound.exec_commit clock s hs tx hfits hinvertible selection now
          rw [hs₁ h0] at hx
          injection hx with hx
          subst hx
          refine ⟨hsound, ?_⟩
          rw [hpush]
          exact hc.push hv hnow
        · obtain ⟨hleaf, hlater⟩ :=
            hcond.resolve_left (Nat.ne_of_gt hpos)
          obtain ⟨text, inversion, htx, hi, -, hback⟩ := hfits.edges
          obtain ⟨s₁, v', hs₁, hsound, -, rfl, hset⟩ :=
            @Sound.exec_join _ clock s hs Transaction.chains_carries hpos tx
              inversion text htx hi htx (fun _ => hback hinvertible) hleaf
              selection now
          rw [hs₁] at hx
          injection hx with hx
          subst hx
          refine ⟨hsound, ?_⟩
          rw [hset]
          exact hc.set hs.recorded.current hnow hlater
    | navigate nav =>
        refine ⟨hs.navigate (fun _ _ _ h => h.turns) hx, ?_⟩
        obtain ⟨txs, target, hnav, -⟩ :=
          History.navigate_spec hs.recorded clock nav
        rw [exec, hnav, ok_bind] at hx
        dsimp only at hx
        rw [bind_eq_ok] at hx
        obtain ⟨t, -, hx⟩ := hx
        injection hx with hx
        subst hx
        exact hc
  obtain ⟨hsound, hc⟩ := hinv
  have hlaw : HistoryLaw clock s := hsound.historyLaw
  refine ⟨fun i v hv hi => ⟨?_, ?_⟩, hlaw.navigate, hc⟩
  · exact Transaction.Carries.applies (hsound.recorded.tree.edge_forth i v hv hi)
  · exact Transaction.Carries.applies (hsound.recorded.tree.edge_back i v hv hi)

/-- Where a step leads, if it does not fail. -/
def after (s : Timeline) (a : Action) : Timeline :=
  match exec wide s a with
  | .ok s' => s'
  | .error _ => s

/-- The law after an edit and a join into it. -/
theorem join_law_leaf :
    ∃ s : Timeline, s.history.current = 1 ∧ s.text = ['c', 'b', 'a']
      ∧ JoinLaw wide s := by
  let join : Action := .join (prepend ['c'] ['b', 'a']) (.point 0) 2
  let edited := after (start 0 ['a']) (.commit 0 (prepend ['b'] ['a'])
    (.point 0) 1)
  have hedited : ∀ (j : Nat) w, edited.history.revisions[j]? = some w →
      0 < j → j = 1 ∧ w.parent = 0 := by
    intro j w hw hj
    have hlt : j < 2 := (List.getElem?_eq_some_iff.mp hw).1
    obtain rfl : j = 1 := by omega
    injection hw with hw
    exact ⟨rfl, by rw [← hw]; rfl⟩
  refine ⟨after edited join, ?_, ?_, @join_law wide 0 ['a'] _
    (.step join
      (.step (.commit 0 (prepend ['b'] ['a']) (.point 0) 1) .start
        ⟨⟨rfl, fits_prepend _ _, by decide⟩,
          invertible_prepend _ _ (by decide)⟩ rfl)
      ⟨⟨fits_prepend _ _, by decide⟩, invertible_prepend _ _ (by decide),
        .inr ⟨.inr ?_, ?_⟩⟩ ?_)⟩
  · decide +kernel
  · decide +kernel
  · intro j w hw hj hp
    rw [(hedited j w hw hj).2] at hp
    exact absurd hp (by decide)
  · intro j w (hj : 1 < j) hw
    have := (hedited j w hw (by omega)).1
    omega
  · decide +kernel

/-- Two edits, one step back, and a join into the first: the second edit
hangs on a text that is gone. -/
theorem not_join_law_parent :
    ∃ s, Reaches Joining (exec wide) (start 0 ['a']) s
      ∧ ¬ JoinLaw wide s := by
  let join : Action := .join (prepend ['d'] ['b', 'a']) (.point 0) 3
  let back := after (after (after (start 0 ['a'])
    (.commit 0 (prepend ['b'] ['a']) (.point 0) 1))
    (.commit 0 (prepend ['c'] ['b', 'a']) (.point 0) 2))
    (.navigate (.earlier (.steps 1)))
  refine ⟨after back join, .step join
    (.step (.navigate (.earlier (.steps 1)))
      (.step (.commit 0 (prepend ['c'] ['b', 'a']) (.point 0) 2)
        (.step (.commit 0 (prepend ['b'] ['a']) (.point 0) 1) .start
          ⟨rfl, fits_prepend _ _, by decide⟩ rfl)
        ⟨rfl, fits_prepend _ _, by decide⟩ rfl) trivial rfl)
    ⟨fits_prepend _ _, by decide⟩ (by decide +kernel), ?_⟩
  intro hlaw
  -- the second edit is for a text of two chars, its parent's has three
  have hchild : (after back join).history.revisions[2]?.map
      (fun v => (v.transaction.changes.len,
        (textAt (after back join).recorded v.parent).length))
        = some (2, 3) := by
    decide +kernel
  obtain ⟨v, hv, hlen⟩ := Option.map_eq_some_iff.mp hchild
  have hedge := (hlaw.edges 2 v hv (by decide)).1.1
  injection hlen with h₁ h₂
  omega

end Timeline

end Zmax
