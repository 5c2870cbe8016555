/-
What the edits of a language server make of a document.

For ropey's lines the resolved edits are the patches that are `kept`
(`resolveEdits_eq`), in order and so never a panic; the diff of a whole
document is the same patch. For the protocol they are all of them: the two
agree just when no insert comes too late, by `simultaneous_kept`.
-/
import Zmax.Core.Proofs.Changes
import Zmax.Core.Proofs.Diff
import Zmax.Lsp.Changes
import Zmax.Lsp.Proofs.Position

namespace Zmax.Lsp

open Patches

variable {unicodeLines : Bool} {imara : ImaraDiff}
  {offsetEncoding : OffsetEncoding} {doc : Rope}

-- == positions

/-- The place of a position in ropey's lines. -/
def ropePos (unicodeLines : Bool) (offsetEncoding : OffsetEncoding)
    (doc : Rope) (pos : Position) : Nat :=
  Lines.locate (lineBreaks unicodeLines) offsetEncoding.len doc
    pos.line.toNat pos.character.toNat

def ropePatch (unicodeLines : Bool) (offsetEncoding : OffsetEncoding)
    (doc : Rope) (edit : TextEdit) : Patch Char :=
  ⟨ropePos unicodeLines offsetEncoding doc edit.range.start,
    ropePos unicodeLines offsetEncoding doc edit.range.stop, edit.newText⟩

theorem lspPosToPos_ropePos (pos : Position) :
    lspPosToPos unicodeLines doc pos offsetEncoding =
      .ok (some (ropePos unicodeLines offsetEncoding doc pos)) :=
  lspPosToPos_eq pos offsetEncoding

theorem ropePos_le (pos : Position) :
    ropePos unicodeLines offsetEncoding doc pos ≤ doc.length :=
  Lines.locate_le _ _

theorem ropePos_mono {a b : Position} (h : a.le b) :
    ropePos unicodeLines offsetEncoding doc a ≤
      ropePos unicodeLines offsetEncoding doc b := by
  refine Lines.locate_mono offsetEncoding.len_pos ?_
  rcases h with hlt | ⟨heq, hle⟩
  · exact .inl hlt
  · exact .inr ⟨congrArg UInt32.toNat heq, hle⟩

theorem ropePatch_eq {edit : TextEdit}
    (h : Resolved unicodeLines offsetEncoding doc edit) :
    ropePatch unicodeLines offsetEncoding doc edit =
      protocolPatch offsetEncoding doc edit := by
  have hplace : ∀ pos ∈ [edit.range.start, edit.range.stop],
      ropePos unicodeLines offsetEncoding doc pos =
        serverPos offsetEncoding doc pos := by
    intro pos hpos
    have heq := h pos hpos
    rw [lspPosToPos_eq] at heq
    injection heq with heq
    exact Option.some.inj heq
  unfold ropePatch protocolPatch
  rw [hplace _ (by simp), hplace _ (by simp)]

-- == sorting

theorem sortEdits_perm (edits : List TextEdit) :
    (sortEdits edits).Perm edits := List.mergeSort_perm _ _

theorem Position.le_iff {a b : Position} :
    a.le b ↔ a.line.toNat < b.line.toNat ∨
      a.line.toNat = b.line.toNat ∧
        a.character.toNat ≤ b.character.toNat := by
  rw [Position.le, UInt32.lt_iff_toNat_lt, UInt32.le_iff_toNat_le,
    UInt32.toNat_inj]

theorem Position.le_trans {a b c : Position} (hab : a.le b) (hbc : b.le c) :
    a.le c := by
  rw [Position.le_iff] at *
  omega

theorem Position.le_total (a b : Position) : a.le b ∨ b.le a := by
  rw [Position.le_iff, Position.le_iff]
  omega

/-- Sorted edits start later and later. -/
theorem sortEdits_sorted (edits : List TextEdit) :
    (sortEdits edits).Pairwise fun a b => a.range.start.le b.range.start := by
  have htrans : ∀ a b c : TextEdit, decide (a.range.start.le b.range.start) →
      decide (b.range.start.le c.range.start) →
        decide (a.range.start.le c.range.start) := by
    simpa using fun a b c : TextEdit => Position.le_trans
  have htotal : ∀ a b : TextEdit, decide (a.range.start.le b.range.start) ||
      decide (b.range.start.le a.range.start) := by
    simpa using fun a b : TextEdit => Position.le_total _ _
  exact (List.pairwise_mergeSort htrans htotal edits).imp of_decide_eq_true

-- == resolving

/-- A patch as a change of the text. -/
def toChange (s : Patch Char) : Change :=
  (s.start, s.stop, if s.new.isEmpty then none else some s.new)

/-- The resolved edits are the patches that are kept. -/
theorem resolveEdits_eq (lastEnd : Nat) (edits : List TextEdit) :
    resolveEdits unicodeLines offsetEncoding doc lastEnd edits =
      .ok ((kept lastEnd (edits.map
        (ropePatch unicodeLines offsetEncoding doc))).map toChange) := by
  induction edits generalizing lastEnd with
  | nil => rfl
  | cons edit edits ih =>
      rw [resolveEdits, lspPosToPos_ropePos, lspPosToPos_ropePos, ok_bind,
        ok_bind, List.map_cons]
      simp only [ih]
      by_cases hproper : ropePos unicodeLines offsetEncoding doc
          edit.range.start ≤ ropePos unicodeLines offsetEncoding doc
            edit.range.stop
      · rw [if_neg (Nat.not_lt.mpr hproper)]
        by_cases hlast : lastEnd ≤
            ropePos unicodeLines offsetEncoding doc edit.range.start
        · rw [if_neg (Nat.not_lt.mpr hlast),
            kept_cons_of_fits ⟨hproper, hlast⟩]
          rfl
        · rw [if_pos (Nat.not_le.mp hlast),
            kept_cons_of_not fun h => hlast h.2]
      · rw [if_pos (Nat.not_le.mp hproper),
          kept_cons_of_not fun h => hproper h.1]

theorem ordered_changes {len last : Nat} {ps : List (Patch Char)}
    (h : Patches.Ordered len last ps) :
    Zmax.Ordered len last (ps.map toChange) := by
  induction ps generalizing last with
  | nil => exact h
  | cons s ps ih => exact ⟨h.1, h.2.1, ih h.2.2⟩

theorem replaceAll_changes (pos : Nat) (ps : List (Patch Char)) :
    replaceAll doc pos (ps.map toChange) = inTurn doc pos ps := by
  induction ps generalizing pos with
  | nil => rfl
  | cons s ps ih =>
      rw [List.map_cons, toChange, replaceAll, ih, inTurn]
      cases s.new <;> rfl

theorem kept_ropePatches (unicodeLines : Bool)
    (offsetEncoding : OffsetEncoding) (doc : Rope) (edits : List TextEdit) :
    Patches.Ordered doc.length 0 (kept 0 (edits.map
      (ropePatch unicodeLines offsetEncoding doc))) := by
  refine kept_ordered (Nat.zero_le _) fun s hs => ?_
  obtain ⟨edit, -, rfl⟩ := List.mem_map.mp hs
  exact ropePos_le _

/-- The edits are changes of the document, whatever they are. -/
theorem changeEdits_carries (edits : List TextEdit) :
    ∃ tx, changeEdits unicodeLines offsetEncoding doc edits = .ok tx ∧
      tx.Carries doc (simultaneous doc (kept 0 (edits.map
        (ropePatch unicodeLines offsetEncoding doc)))) := by
  have hordered := kept_ropePatches unicodeLines offsetEncoding doc edits
  obtain ⟨c, hc, hcarries⟩ :=
    ChangeSet.fromChanges_carries (ordered_changes hordered)
  rw [replaceAll_changes, inTurn_eq_simultaneous hordered] at hcarries
  refine ⟨.ofChanges c, ?_, hcarries⟩
  rw [changeEdits, resolveEdits_eq, ok_bind, hc]
  rfl

/-- So is a diff with the new document. -/
theorem generate_carries (unicodeLines : Bool)
    (offsetEncoding : OffsetEncoding) (doc : Rope)
    (hlines : imara.lines.Sound) (hchars : imara.chars.Sound)
    (edits : List TextEdit) :
    ∃ tx, generateTransactionFromEdits unicodeLines imara offsetEncoding doc
        edits = .ok tx ∧
      tx.Carries doc (simultaneous doc (kept 0 ((sortEdits edits).map
        (ropePatch unicodeLines offsetEncoding doc)))) := by
  unfold generateTransactionFromEdits
  split
  · next edit hsorted =>
    have hwhole : isDocumentReplacement unicodeLines offsetEncoding doc edit =
        .ok (decide (ropePos unicodeLines offsetEncoding doc edit.range.start
            = 0 ∧ ropePos unicodeLines offsetEncoding doc edit.range.stop =
              doc.length)) := by
      rw [isDocumentReplacement, lspPosToPos_ropePos, lspPosToPos_ropePos]
      refine congrArg Except.ok (decide_eq_decide.mpr ?_)
      rw [Option.some.injEq, Option.some.injEq]
    rw [hwhole, ok_bind, hsorted]
    by_cases h : ropePos unicodeLines offsetEncoding doc edit.range.start = 0 ∧
        ropePos unicodeLines offsetEncoding doc edit.range.stop = doc.length
    · obtain ⟨tx, htx, hcarries⟩ := compareRopes_carries
        unicodeLines hlines hchars doc edit.newText
      refine ⟨tx, by rw [if_pos (by simp [h])]; exact htx, ?_⟩
      rw [← inTurn_eq_simultaneous (kept_ropePatches _ _ _ _), List.map_cons,
        ropePatch, h.1, h.2]
      simpa [kept, inTurn] using hcarries
    · rw [if_neg (by simpa using h)]
      exact changeEdits_carries [edit]
  · exact changeEdits_carries _

-- == the protocol

theorem sorted_patches {edits : List TextEdit}
    (h : NoOverlap offsetEncoding doc edits)
    (hresolved : ∀ edit ∈ edits, Resolved unicodeLines offsetEncoding doc edit) :
    Sorted ((sortEdits edits).map (protocolPatch offsetEncoding doc)) := by
  have hperm := (sortEdits_perm edits).map (protocolPatch offsetEncoding doc)
  refine ⟨fun s hs => h.proper s (hperm.mem_iff.mp hs),
    (hperm.pairwise_iff fun hab => hab.symm).mpr h.apart, ?_⟩
  refine List.pairwise_map.mpr ?_
  refine (sortEdits_sorted edits).imp_of_mem fun ha hb hab => ?_
  have ha := hresolved _ ((sortEdits_perm edits).mem_iff.mp ha)
  have hb := hresolved _ ((sortEdits_perm edits).mem_iff.mp hb)
  rw [← ropePatch_eq ha, ← ropePatch_eq hb]
  exact ropePos_mono hab

/-- A list of edits gives a transaction. Without overlaps, and with every
position on the same line for ropey as for the protocol, it is what the
protocol says just when the edits are in order. -/
theorem edits_law (unicodeLines : Bool) (imara : ImaraDiff)
    (hlines : imara.lines.Sound) (hchars : imara.chars.Sound)
    (offsetEncoding : OffsetEncoding) (doc : Rope) (edits : List TextEdit) :
    ∃ tx text, generateTransactionFromEdits unicodeLines imara offsetEncoding
        doc edits = .ok tx ∧ tx.apply doc = .ok (true, text) ∧
      (NoOverlap offsetEncoding doc edits →
        (∀ edit ∈ edits, Resolved unicodeLines offsetEncoding doc edit) →
        (text = simultaneousEdits offsetEncoding doc edits ↔
          InOrder offsetEncoding doc edits)) := by
  obtain ⟨tx, htx, hcarries⟩ := generate_carries unicodeLines
    offsetEncoding doc hlines hchars edits
  refine ⟨tx, _, htx, hcarries.turns, fun hno hresolved => ?_⟩
  have hperm := sortEdits_perm edits
  have hsame : (sortEdits edits).map
      (ropePatch unicodeLines offsetEncoding doc) =
        (sortEdits edits).map (protocolPatch offsetEncoding doc) :=
    List.map_congr_left fun edit hedit =>
      ropePatch_eq (hresolved edit (hperm.mem_iff.mp hedit))
  rw [hsame, simultaneousEdits, simultaneous_kept
    (sorted_patches hno hresolved) (hperm.map _) ?_]
  · exact ⟨fun h => ⟨h.1, h.2⟩, fun h => ⟨h.1, h.2⟩⟩
  · intro s hs
    obtain ⟨edit, -, rfl⟩ := List.mem_map.mp hs
    exact Lines.locate_le _ _

/-- An insert and then a replacement at one place, and an insert on a line
before it. -/
def tiedEdits : List TextEdit :=
  [⟨⟨⟨1, 0⟩, ⟨1, 0⟩⟩, ['x']⟩, ⟨⟨⟨1, 0⟩, ⟨1, 1⟩⟩, ['y']⟩,
    ⟨⟨⟨0, 1⟩, ⟨0, 1⟩⟩, ['z']⟩]

theorem edits_law_tied :
    ∃ tx text, generateTransactionFromEdits false ⟨Hunks.coarse, Hunks.coarse⟩
        .utf16 ['a', '\n', 'b'] tiedEdits = .ok tx ∧
      tx.apply ['a', '\n', 'b'] = .ok (true, text) ∧
      (text = simultaneousEdits .utf16 ['a', '\n', 'b'] tiedEdits ↔
        InOrder .utf16 ['a', '\n', 'b'] tiedEdits) := by
  obtain ⟨tx, text, htx, happly, hlaw⟩ := edits_law false
    ⟨Hunks.coarse, Hunks.coarse⟩ Hunks.coarse_sound Hunks.coarse_sound .utf16
    ['a', '\n', 'b'] tiedEdits
  refine ⟨tx, text, htx, happly, hlaw ⟨by decide, by decide⟩ ?_⟩
  unfold Resolved
  decide

/-- A char is deleted, and then something is put in front of it. -/
def lateEdits : List TextEdit :=
  [⟨⟨⟨0, 0⟩, ⟨0, 1⟩⟩, []⟩, ⟨⟨⟨0, 0⟩, ⟨0, 0⟩⟩, ['x']⟩]

/-- What is put in front of the deleted char is lost. -/
theorem not_edits_law_late :
    ¬ ∀ (unicodeLines : Bool) (imara : ImaraDiff)
      (offsetEncoding : OffsetEncoding) (doc : Rope) (edits : List TextEdit),
      NoOverlap offsetEncoding doc edits →
      (∀ edit ∈ edits, Resolved unicodeLines offsetEncoding doc edit) →
        ∃ tx, generateTransactionFromEdits unicodeLines imara offsetEncoding
            doc edits = .ok tx ∧
          tx.apply doc =
            .ok (true, simultaneousEdits offsetEncoding doc edits) := by
  intro h
  obtain ⟨tx, htx, happly⟩ := h false ⟨Hunks.coarse, Hunks.coarse⟩ .utf16
    ['a', 'b'] lateEdits ⟨by decide, by decide⟩ (by unfold Resolved; decide)
  have hsorted : sortEdits lateEdits = lateEdits :=
    List.mergeSort_of_pairwise (by decide)
  have hchange : changeEdits false .utf16 ['a', 'b'] lateEdits =
      .ok ⟨⟨[.delete 1, .retain 1], 2, 1⟩, none⟩ := by decide
  rw [generateTransactionFromEdits, hsorted] at htx
  have hlate : changeEdits false .utf16 ['a', 'b'] lateEdits = .ok tx := htx
  rw [hchange] at hlate
  cases hlate
  exact absurd happly (by decide)

end Zmax.Lsp
