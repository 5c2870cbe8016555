/-
zmax-lsp/src/client.rs, `text_document_did_change`, and the hook that calls
it (zmax-view/src/handlers/lsp.rs): the server's text over a run of edits.

A ghost transaction previews a completion, and the server is not told.
-/
import Zmax.Lib.Reach
import Zmax.Lsp.Proofs.Naming

namespace Zmax.Lsp

inductive TextDocumentSyncKind where
  | full
  | incremental

structure Client where
  sync : TextDocumentSyncKind
  offsetEncoding : OffsetEncoding
  unicodeLines : Bool

/-- The document's text, what it is without ghost transactions, and the
server's text. -/
structure Texts where
  text : Rope
  settled : Rope
  server : Rope

namespace Client

/-- The server's text after `text_document_did_change`. -/
def didChange (self : Client) (oldText newText : Rope)
    (changes : ChangeSet) (server : Rope) : Result Rope :=
  match self.sync with
  | .full => .ok newText
  | .incremental => do
      let changes ← changesetToChanges self.offsetEncoding self.unicodeLines
        oldText newText changes
      return serverChanges self.offsetEncoding server changes

/-- An edit, of which the server is told unless it is a ghost. -/
def edit (self : Client) (s : Texts) (e : ChangeSet × Bool) :
    Result Texts := do
  let (_, newText) ← e.1.apply s.text
  if e.2 then return { s with text := newText }
  let server ← self.didChange s.text newText e.1 s.server
  return ⟨newText, newText, server⟩

/-- Ghosts are taken back before the server is told again. -/
def Takes (self : Client) (s : Texts) (e : ChangeSet × Bool) : Prop :=
  ∃ newText, e.1.Carries s.text newText ∧ (e.2 = false →
    s.text = s.settled ∧ (self.sync = .incremental →
      ∀ x ∈ splices e.1.changes 0 0,
        x.Addressed self.offsetEncoding self.unicodeLines s.text newText))

/-- In every run of edits the server's text is the document's, but for the
ghosts. -/
theorem edit_law (self : Client) {text : Rope} {s : Texts}
    (h : Reach.Reaches self.Takes self.edit ⟨text, text, text⟩ s) :
    s.server = s.settled ∧ ∀ e, self.Takes s e → ∃ next,
      self.edit s e = .ok next ∧ (e.2 = false → next.server = next.text) := by
  have hstep : ∀ s e, s.server = s.settled → self.Takes s e → ∃ next,
      self.edit s e = .ok next ∧ next.server = next.settled ∧
        (e.2 = false → next.server = next.text) := by
    rintro ⟨text, settled, server⟩ ⟨changes, ghost⟩ hs
      ⟨newText, hcarries, hplain⟩
    obtain rfl : server = settled := hs
    rw [edit, hcarries.apply, ok_bind]
    cases ghost with
    | true => exact ⟨_, rfl, rfl, nofun⟩
    | false =>
        obtain ⟨hsettled, haddr⟩ := hplain rfl
        obtain rfl : text = server := hsettled
        have hserver : self.didChange text newText changes text =
            .ok newText := by
          unfold didChange
          split
          · rfl
          · next hsync =>
              obtain ⟨emitted, hemitted, -, hserver⟩ := changesLoop_spec
                (cursor_of_carries hcarries) (haddr hsync)
              rw [changesetToChanges, hemitted, ok_bind]
              exact congrArg _ hserver
        dsimp only
        rw [hserver]
        exact ⟨_, rfl, rfl, fun _ => rfl⟩
  have hinv : s.server = s.settled := by
    refine Reach.Reaches.invariant (I := fun s => s.server = s.settled) rfl
      (fun s e s' hs he hx => ?_) h
    obtain ⟨next, hnext, hsettled, -⟩ := hstep s e hs he
    cases hnext.symm.trans hx
    exact hsettled
  refine ⟨hinv, fun e he => ?_⟩
  obtain ⟨next, hnext, -, hserver⟩ := hstep s e hinv he
  exact ⟨next, hnext, hserver⟩

/-- While a ghost is there. -/
theorem edit_law_ghost :
    let client : Client := ⟨.full, .utf8, false⟩
    ∃ s, Reach.Reaches client.Takes client.edit ⟨['a'], ['a'], ['a']⟩ s ∧
      s.text = ['b', 'a'] ∧ s.server = s.settled := by
  intro client
  have hrun : Reach.Reaches client.Takes client.edit ⟨['a'], ['a'], ['a']⟩
      ⟨['b', 'a'], ['a'], ['a']⟩ :=
    .step (⟨[.insert ['b'], .retain 1], 1, 2⟩, true) .start
      ⟨_, ⟨.inl ⟨rfl, rfl, by decide⟩, rfl, rfl⟩, nofun⟩ rfl
  exact ⟨_, hrun, rfl, (client.edit_law hrun).1⟩

end Client

end Zmax.Lsp
