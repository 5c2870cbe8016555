/-
zmax-view/src/document.rs: reloading a document from its path, up to the
text that `Document.reload` is then given.

# Parameters

The file system, the uncompress programs and the decoders are `Disk`; the
document's path, encoding and name are handed to `reloadFrom`. The result
is the source's, next to the document and the view: an error is one of the
function's results, as what was done before it stays done.

Whether the file is readonly, its modification time, its indentation and
line ending and what a version control knows of it are left out: nothing
here reads them.

Reloading: what a successful one leaves in the buffer, and a failed one.

The edit that `compare_ropes` finds leads from the text to the file's, so
that it is in the buffer unless `apply` refuses the edit; and the buffer is
marked as saved either way (`reload_marks`).
-/
import Zmax.Core.Proofs.Diff
import Zmax.View.Proofs.Tracking

namespace Zmax

/-- What reload asks of the outside: paths `π`, entries of the compression
list `ι`, readers `ρ`, encodings `κ` and errors `ε`. -/
structure Disk (π ι ρ κ ε : Type) where
  /-- `Path::exists` -/
  pathExists : π → Bool
  compressionInfo : π → Option ι
  /-- `jka_compr_uncompress`, its bytes as a reader. -/
  jkaComprUncompress : ι → π → Except ε ρ
  /-- `File::open` -/
  openFile : π → Except ε ρ
  /-- `from_reader`, given an encoding. -/
  fromReader : ρ → κ → Except ε Rope

/-- Why a reload fails. -/
inductive ReloadError (ε : Type) where
  /-- "can't find file to reload from" this name -/
  | cantFindFile (displayName : String)
  | outside (error : ε)
  deriving DecidableEq, Repr

variable {π ι ρ κ ε : Type}

/-- The file's content: what the uncompress program makes of it, for a
compressed file, and decoded. -/
def Disk.content (disk : Disk π ι ρ κ ε) (path : π) (encoding : κ) :
    Except ε Rope :=
  match disk.compressionInfo path with
  | some info => do
      let bytes ← disk.jkaComprUncompress info path
      disk.fromReader bytes encoding
  | none => do
      let file ← disk.openFile path
      disk.fromReader file encoding

/-- `reload`: `Document.reload` with what there is at the path, if that can
be read. -/
def Document.reloadFrom (U : Unicode) (unicodeLines : Bool)
    (imara : ImaraDiff) (disk : Disk π ι ρ κ ε) (self : Document)
    (path : Option π) (encoding : κ) (displayName : String)
    (undoLevels : Nat) (now : Instant) (view : View) (undoreload : Int) :
    Result (Except (ReloadError ε) Unit × Document × View) :=
  match path with
  | none => .ok (.ok (), self, view)
  | some path =>
      if disk.pathExists path then
        match disk.content path encoding with
        | .error error => .ok (.error (.outside error), self, view)
        | .ok rope => do
            let transaction ← compareRopes unicodeLines imara self.text rope
            let (doc, view) ← self.reload U undoLevels now view transaction
              (lenLines unicodeLines rope) undoreload
            return (.ok (), doc, view)
      else .ok (.error (.cantFindFile displayName), self, view)

end Zmax

namespace Zmax

variable {U : Unicode} {π ι ρ κ ε : Type}

namespace Document

variable {doc doc' : Document} {view view' : View}

/-- After a commit nothing is pending, and the text is the same. -/
theorem append_settles {undoLevels : Nat} {now : Instant}
    (hx : doc.appendChangesToHistory U undoLevels now view
      = .ok (doc', view')) :
    doc'.text = doc.text ∧ doc'.changes.isEmpty := by
  unfold appendChangesToHistory at hx
  split at hx
  · next hempty =>
      injection hx with hx
      injection hx with hdoc _
      subst hdoc
      exact ⟨rfl, hempty⟩
  · obtain ⟨selection, -, hx⟩ := bind_eq_ok.mp hx
    obtain ⟨oldState, -, hx⟩ := bind_eq_ok.mp hx
    obtain ⟨history, -, hx⟩ := bind_eq_ok.mp hx
    obtain ⟨view'', -, hx⟩ := bind_eq_ok.mp hx
    injection hx with hx
    injection hx with hdoc _
    subst hdoc
    exact ⟨rfl, rfl⟩

/-- A reload is an edit, and marks what is then there as saved. -/
theorem reload_marks {undoLevels : Nat} {now : Instant} {tx : Transaction}
    {lines : Nat} {undoreload : Int}
    (hx : doc.reload U undoLevels now view tx lines undoreload
      = .ok (doc', view')) :
    doc'.isModified = false ∧ ∃ success applied,
      doc.apply U tx view.id = .ok (success, applied)
        ∧ doc'.text = applied.text := by
  obtain ⟨success, applied, kept, happly, hkept, rfl⟩ := reload_spec hx
  have hsettled : kept.text = applied.text ∧ kept.changes.isEmpty := by
    split at hkept
    · exact append_settles hkept
    · rw [hkept.1]
      exact ⟨rfl, rfl⟩
  refine ⟨?_, success, applied, happly, hsettled.1⟩
  unfold isModified resetModified
  simp [hsettled.2]

/-- The edit to another text gets there unless the buffer cannot be
modified. -/
theorem apply_arrives {tx : Transaction} {text : Rope} {v : ViewId}
    (hc : tx.Carries doc.text text) {success : Bool}
    (hx : doc.apply U tx v = .ok (success, doc')) :
    doc'.text = text ↔ doc.modifiable = true ∨ doc.text = text := by
  have hchange : doc.refusesChange tx = true ↔
      doc.modifiable = false ∧ ¬ tx.changes.isEmpty := by
    unfold refusesChange
    simp
  rcases apply_spec hc hx with
    ⟨hrefuses, rfl⟩ | ⟨_, _, _, _, _, heq, -⟩
  · simp [(hchange.mp hrefuses).1]
  · by_cases hrefuses : doc.refusesChange tx = true
    · unfold apply at hx
      rw [if_pos hrefuses] at hx
      injection hx with hx
      injection hx with _ hx
      simp [← hx, (hchange.mp hrefuses).1]
    · have htext : doc'.text = text := by rw [heq]
      refine ⟨fun _ => ?_, fun _ => htext⟩
      by_contra hor
      obtain ⟨hmod, hne⟩ := not_or.mp hor
      refine hrefuses (hchange.mpr ⟨by simpa using hmod, fun he => hne ?_⟩)
      exact ChangeSet.Carries.unchanged hc he

/-- What a reload is for: the file's content in a buffer that is not
modified; or, with an error, the text as it was. -/
def Reloaded (disk : Disk π ι ρ κ ε) (path : Option π) (encoding : κ)
    (before after : Document) : Except (ReloadError ε) Unit → Prop
  | .ok () =>
      (∀ p rope, path = some p → disk.content p encoding = .ok rope →
        after.text = rope)
      ∧ after.isModified = false
  | .error _ => after.text = before.text

/-- The reload does not have to change a buffer that it cannot: without a
path it is not modified, and where it is not modifiable it shows the file's
content already. -/
def CanReload (disk : Disk π ι ρ κ ε) (encoding : κ) (doc : Document) :
    Option π → Prop
  | none => doc.isModified = false
  | some p => disk.pathExists p = true →
      ∀ rope, disk.content p encoding = .ok rope →
        doc.modifiable = true ∨ doc.text = rope

/-- When a reload is over, it has done what it is for exactly if the buffer
did not have to change, or could. -/
theorem reload_law (U : Unicode) (unicodeLines : Bool) (imara : ImaraDiff)
    (hlines : imara.lines.Sound) (hchars : imara.chars.Sound)
    (disk : Disk π ι ρ κ ε) (doc : Document) (path : Option π)
    (encoding : κ) (displayName : String) (undoLevels : Nat)
    (now : Instant) (view : View) (undoreload : Int)
    (outcome : Except (ReloadError ε) Unit) (doc' : Document)
    (view' : View)
    (hx : doc.reloadFrom U unicodeLines imara disk path encoding displayName
      undoLevels now view undoreload = .ok (outcome, doc', view')) :
    Reloaded disk path encoding doc doc' outcome ↔
      CanReload disk encoding doc path := by
  unfold reloadFrom at hx
  cases path with
  | none =>
      injection hx with hx
      injection hx with hout hx
      injection hx with hdoc _
      subst hout hdoc
      exact ⟨fun h => h.2, fun h => ⟨by simp, h⟩⟩
  | some p =>
      unfold CanReload
      dsimp only at hx
      split at hx
      · next hexists =>
          split at hx
          · next error herror =>
              injection hx with hx
              injection hx with hout hx
              injection hx with hdoc _
              subst hout hdoc
              exact ⟨fun _ _ rope hrope => by simp [herror] at hrope,
                fun _ => rfl⟩
          · next rope hrope =>
              obtain ⟨tx, htx, hcarries⟩ := compareRopes_carries unicodeLines
                hlines hchars doc.text rope
              rw [htx, ok_bind] at hx
              obtain ⟨⟨d, v⟩, hreload, hx⟩ := bind_eq_ok.mp hx
              injection hx with hx
              injection hx with hout hx
              injection hx with hdoc _
              subst hout hdoc
              obtain ⟨hsaved, success, applied, happly, htext⟩ :=
                reload_marks hreload
              have harrives := apply_arrives hcarries happly
              rw [← htext] at harrives
              have hcontent : ∀ r, disk.content p encoding = .ok r →
                  rope = r := by
                intro r hr
                rw [hrope] at hr
                exact Except.ok.inj hr
              constructor
              · rintro ⟨hshows, -⟩ _ r hr
                obtain rfl := hcontent r hr
                exact harrives.mp (hshows p rope rfl hrope)
              · intro hcan
                refine ⟨fun q r hq hr => ?_, hsaved⟩
                injection hq with hq
                subst hq
                obtain rfl := hcontent r hr
                exact harrives.mpr (hcan hexists rope hrope)
      · next hmissing =>
          injection hx with hx
          injection hx with hout hx
          injection hx with hdoc _
          subst hout hdoc
          exact ⟨fun _ hexists => absurd hexists hmissing, fun _ => rfl⟩

/-- One file that is not compressed, read as it is. -/
def oneFile (content : Rope) : Disk Unit Empty Rope Unit Empty :=
  { pathExists := fun _ => true
    compressionInfo := fun _ => none
    jkaComprUncompress := fun info _ => info.elim
    openFile := fun _ => .ok content
    fromReader := fun bytes _ => .ok bytes }

/-- A text of one char, in a window with the cursor at the start. -/
def visiting (modifiable : Bool) : Document :=
  { ofText 0 ['a'] with
    selections := [(0, .point 0)]
    viewData := [(0, .default)]
    modifiable := modifiable }

/-- The reload of a file with another char. -/
def revisit (modifiable : Bool) :
    Result (Except (ReloadError Empty) Unit × Document × View) :=
  (visiting modifiable).reloadFrom .ascii false
    ⟨Hunks.coarse, Hunks.coarse⟩ (oneFile ['b']) (some ()) () "a" 0 1
    (.new 0 0) (-1)

/-- Whether it was successful, and the text then. -/
def revisited (modifiable : Bool) : Option (Bool × Rope) :=
  (revisit modifiable).toOption.map fun r => (r.1.toBool, r.2.1.text)

theorem revisit_ok {modifiable : Bool} {text : Rope}
    (h : revisited modifiable = some (true, text)) :
    ∃ doc' view', revisit modifiable = .ok (.ok (), doc', view') ∧
      doc'.text = text := by
  unfold revisited at h
  cases hx : revisit modifiable with
  | error panic => simp [hx, Except.toOption] at h
  | ok r =>
      obtain ⟨outcome, doc', view'⟩ := r
      cases outcome with
      | error error => simp [hx, Except.toOption, Except.toBool] at h
      | ok done =>
          refine ⟨doc', view', rfl, ?_⟩
          simpa [hx, Except.toOption, Except.toBool] using h

/-- A buffer that can be modified shows the file's content. -/
theorem reload_law_modifiable :
    ∃ doc' view', revisit true = .ok (.ok (), doc', view') ∧
      Reloaded (oneFile ['b']) (some ()) () (visiting true) doc'
        (.ok ()) := by
  obtain ⟨doc', view', hx, -⟩ :=
    @revisit_ok true ['b'] (by decide)
  refine ⟨doc', view', hx, ?_⟩
  exact (reload_law .ascii false ⟨Hunks.coarse, Hunks.coarse⟩
    Hunks.coarse_sound Hunks.coarse_sound (oneFile ['b']) (visiting true)
    (some ()) () "a" 0 1 (.new 0 0) (-1) (.ok ()) doc' view' hx).mpr
    fun _ _ _ => .inl rfl

/-- One that cannot be modified does not, and counts as saved. -/
theorem not_reload_law_nomodifiable :
    ∃ doc' view', revisit false = .ok (.ok (), doc', view') ∧
      doc'.text = ['a'] ∧
      ¬ Reloaded (oneFile ['b']) (some ()) () (visiting false) doc'
        (.ok ()) := by
  obtain ⟨doc', view', hx, htext⟩ :=
    @revisit_ok false ['a'] (by decide)
  refine ⟨doc', view', hx, htext, fun h => ?_⟩
  have hshows : doc'.text = ['b'] := h.1 () ['b'] rfl rfl
  rw [htext] at hshows
  revert hshows
  decide

end Document

end Zmax
