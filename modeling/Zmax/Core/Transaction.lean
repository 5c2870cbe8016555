/-
zmax-core/src/transaction.rs, transactions: a change set with the
selection it leaves, if it sets one.
-/
import Zmax.Core.Selection

namespace Zmax

/-- A single undoable unit of changes. -/
structure Transaction where
  changes : ChangeSet
  /-- When set, explicitly updates the selection. -/
  selection : Option Selection
  deriving DecidableEq, Repr

namespace Transaction

/-- `From<ChangeSet>` -/
def ofChanges (changes : ChangeSet) : Transaction := ⟨changes, none⟩

/-- A new, empty transaction. -/
def new (doc : Rope) : Transaction := ⟨.new doc, none⟩

/-- Apply to a text: whether that was successful, and the text then. -/
def apply (self : Transaction) (doc : Rope) : Result (Bool × Rope) :=
  if self.changes.isEmpty then .ok (true, doc)
  else self.changes.apply doc

/-- A transaction that reverts this one. -/
def invert (self : Transaction) (original : Rope) : Result Transaction := do
  let changes ← self.changes.invert original
  return ⟨changes, none⟩

/-- One transaction after the other; the selection is the other's. -/
def compose (self other : Transaction) : Result Transaction := do
  let changes ← self.changes.compose other.changes
  return ⟨changes, other.selection⟩

def withSelection (self : Transaction) (selection : Selection) :
    Transaction :=
  { self with selection := some selection }

end Transaction

end Zmax
