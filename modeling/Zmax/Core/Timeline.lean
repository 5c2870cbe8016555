/-
A buffer with its history, taking step after step: the runs that the
laws of the history are about.

A step commits a transaction and applies it to the text, joins one into
the current revision, or moves through the history and applies what it
hands out. `recorded` is a ghost: the text of every revision when it was
committed, or last joined into. No step reads it.
-/
import Zmax.Core.Proofs.Commit
import Zmax.Lib.Reach

namespace Zmax

/-- A buffer's history and text, with the recorded texts. -/
structure Timeline where
  history : History
  text : Rope
  recorded : List Rope
  deriving DecidableEq, Repr

namespace Timeline

inductive Action where
  /-- Commit under a value of `undolevels`. -/
  | commit (undoLevels : Nat) (tx : Transaction) (selection : Selection)
      (now : Instant)
  /-- Join into the current revision; at the root, commit without a
  cap. -/
  | join (tx : Transaction) (selection : Selection) (now : Instant)
  | navigate (nav : Navigation)
  deriving DecidableEq, Repr

/-- A new history on a text. -/
def start (now : Instant) (text : Rope) : Timeline :=
  ⟨.default now, text, [text]⟩

/-- Apply what the history hands out, one after the other. -/
def applyAll : List Transaction → Rope → Result Rope
  | [], text => .ok text
  | tx :: txs, text => do
      let (_, text) ← tx.apply text
      applyAll txs text

/-- The recorded texts after a trim: the root stands for what the oldest
revision kept starts from. -/
def trimTexts (h : History) (undoLevels : Nat) (texts : List Rope) :
    List Rope :=
  let d := h.dropCount undoLevels
  match h.revisions[d + 1]? with
  | some oldest => History.keptTexts (textAt texts oldest.parent) texts d
  | none => texts

/-- One step. -/
def exec (clock : Clock) (s : Timeline) : Action → Result Timeline
  | .commit undoLevels tx selection now => do
      let original : State := ⟨s.text, selection⟩
      let history ←
        s.history.commitRevisionAtTimestamp undoLevels tx original now
      let (_, text) ← tx.apply s.text
      -- the ghost follows the tree before the trim
      let untrimmed ← s.history.commitRevisionAtTimestamp 0 tx original now
      return ⟨history, text,
        trimTexts untrimmed undoLevels (s.recorded ++ [text])⟩
  | .join tx selection now => do
      let history ←
        s.history.mergeLastRevision 0 tx ⟨s.text, selection⟩ now
      let (_, text) ← tx.apply s.text
      return ⟨history, text,
        if s.history.current = 0 then s.recorded ++ [text]
        else s.recorded.set s.history.current text⟩
  | .navigate nav => do
      let (txs, history) ← s.history.navigate clock nav
      let text ← applyAll txs s.text
      return { s with history := history, text := text }

/-- What a caller promises of a transaction: it comes from the public
API, and is made for the text. -/
structure Fits (tx : Transaction) (text : Rope) : Prop where
  obtainable : tx.changes.Obtainable
  len : tx.changes.len = text.length

attribute [grind =] applyAll

end Timeline

end Zmax
