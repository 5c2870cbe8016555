/-
What a change list that names its splices says about the texts, in the
build whose lines end at line feeds only: exactly that every splice can be
named (`Splice.Addressed`).

Ropey then breaks nowhere but where the protocol does, so it counts as
many lines before a splice only if every `\r` there has its `\n`. A
position the server reaches parts no `\r` from its `\n`, and a number that
has wrapped is too small for the place it stands for.
-/
import Zmax.Lsp.Proofs.Changes

namespace Zmax.Lsp

open Lines Script

variable {offsetEncoding : OffsetEncoding} {oldText newText : Rope}

theorem Position.fits (pos : Position) : Fits pos.nums :=
  ⟨pos.line.toNat_lt, pos.character.toNat_lt⟩

theorem addU32_eq_ok {a b : UInt32} {n : Nat} (h : addU32 a n = .ok b) :
    a.toNat + n < 2 ^ 32 ∧ b.toNat = a.toNat + n := by
  unfold addU32 at h
  obtain ⟨_, hassert, h⟩ := bind_eq_ok.mp h
  have hlt := of_decide_eq_true (assert_eq_ok.mp hassert)
  injection h with h
  subst h
  exact ⟨hlt, UInt32.toNat_ofNat_of_lt' hlt⟩

-- == traverse

/-- A walk that starts on `u32` and goes on there. -/
theorem Walks.cons {n : Nat × Nat} {c : Char} {rest : Rope}
    (hn : Fits n) (h : Walks offsetEncoding (next offsetEncoding n c rest)
      rest) : Walks offsetEncoding n (c :: rest) := by
  intro k hk hcut
  cases k with
  | zero => exact hn
  | succ k =>
      rw [advance_next k]
      refine h k (Nat.le_of_succ_le_succ hk) ?_
      cases k with
      | zero => rfl
      | succ k =>
          cases rest with
          | nil => simp at hk
          | cons d rest =>
              rw [List.take_succ_cons, List.take_succ_cons,
                List.getLast?_cons_cons, List.getElem?_cons_succ] at hcut
              exact hcut

/-- A walk past a `\r\n`. -/
theorem Walks.cons_pair {n : Nat × Nat} {rest : Rope} (hn : Fits n)
    (h : Walks offsetEncoding (n.1 + 1, 0) rest) :
    Walks offsetEncoding n ('\r' :: '\n' :: rest) := by
  have hnext : next offsetEncoding
      (next offsetEncoding n '\r' ('\n' :: rest)) '\n' rest
      = (n.1 + 1, 0) := by
    unfold next
    rw [lspBreaks.ends_snd (a := '\r') rfl]
    rfl
  intro k hk hcut
  cases k with
  | zero => exact hn
  | succ k =>
      cases k with
      | zero => cases hcut
      | succ k =>
          rw [advance_next (k + 1), advance_next k, hnext]
          refine h k (by simpa using hk) ?_
          cases k with
          | zero => rfl
          | succ k =>
              cases rest with
              | nil => simp at hk
              | cons d rest =>
                  rw [List.take_succ_cons, List.take_succ_cons,
                    List.take_succ_cons, List.getLast?_cons_cons,
                    List.getLast?_cons_cons, List.getElem?_cons_succ,
                    List.getElem?_cons_succ] at hcut
                  exact hcut

/-- Where `traverse` gets through, its numbers were `u32` all the way. -/
theorem walks_of_traverse {text : Rope} {pos stop : Position}
    (h : traverse offsetEncoding pos text = .ok stop) :
    Walks offsetEncoding pos.nums text := by
  induction pos, text using traverse.induct with
  | case1 pos =>
      intro k hk _
      obtain rfl : k = 0 := by simpa using hk
      exact pos.fits
  | case2 pos rest ih =>
      rw [traverse] at h
      obtain ⟨line, hline, h⟩ := bind_eq_ok.mp h
      apply Walks.cons_pair pos.fits
      have htail := ih line h
      rwa [show Position.nums ⟨line, 0⟩ = (pos.nums.1 + 1, 0) from
        Prod.ext (addU32_eq_ok hline).2 rfl] at htail
  | case3 pos ch rest hne hbreak ih =>
      have hcut := not_joins_of_ne hne
      rw [traverse_break hne hbreak] at h
      obtain ⟨line, hline, h⟩ := bind_eq_ok.mp h
      apply Walks.cons pos.fits
      have htail := ih line h
      have hb : lspBreaks.breaks ch = true := hbreak
      unfold next
      rw [Rule.ends_of_not_joins hcut, if_pos hb]
      rwa [show Position.nums ⟨line, 0⟩ = (pos.nums.1 + 1, 0) from
        Prod.ext (addU32_eq_ok hline).2 rfl] at htail
  | case4 pos ch rest hne hbreak ih =>
      have hcut := not_joins_of_ne hne
      rw [traverse_char hne hbreak] at h
      obtain ⟨character, hcharacter, h⟩ := bind_eq_ok.mp h
      apply Walks.cons pos.fits
      have htail := ih character h
      have hb : ¬ lspBreaks.breaks ch = true := hbreak
      unfold next
      rw [Rule.ends_of_not_joins hcut, if_neg hb]
      rwa [show Position.nums ⟨pos.line, character⟩
          = (pos.nums.1, pos.nums.2 + offsetEncoding.len ch) from
        Prod.ext rfl (addU32_eq_ok hcharacter).2] at htail

-- == what is named

namespace Splice

variable {s : Splice}

/-- Ropey ends a line only where the protocol does. -/
theorem lspEnds_of_ends {c : Char} {f g : Option Char}
    (h : (lineBreaks false).ends c f = true) :
    lspBreaks.ends c g = true := by
  have hc : c = '\n' := by
    unfold Rule.ends lineBreaks at h
    simp only [Bool.and_eq_true] at h
    simpa using h.1
  subst hc
  exact lspBreaks.ends_snd (a := '\r') rfl g

/-- Before a splice the client counts no more lines than the server, and
as many only if both end them at the same chars. -/
theorem lineAt_le_server (hnew : s.newPos ≤ newText.length)
    (hold : s.oldPos + s.deleted ≤ oldText.length) :
    lineAt (lineBreaks false) newText s.newPos
        ≤ lineAt lspBreaks (s.pending oldText newText) s.newPos ∧
      (lineAt (lineBreaks false) newText s.newPos
          = lineAt lspBreaks (s.pending oldText newText) s.newPos →
        ∀ i c, (newText.take s.newPos)[i]? = some c →
          (lineBreaks false).ends c
              ((newText.take s.newPos)[i + 1]?.or newText[s.newPos]?)
            = lspBreaks.ends c ((newText.take s.newPos)[i + 1]?.or
                (s.pending oldText newText)[s.newPos]?)) := by
  have hlen : s.newPos ≤ (s.pending oldText newText).length :=
    length_pending hnew hold (Nat.zero_le _)
  have htake := @take_pending oldText _ _ hnew 0
  rw [List.take_zero, List.append_nil, Nat.add_zero] at htake
  have h := @advance_le _ (lineBreaks false) OffsetEncoding.utf32.len
    lspBreaks (newText.take s.newPos) newText[s.newPos]?
    (s.pending oldText newText)[s.newPos]? (0, 0) (0, 0) le_rfl
    fun i c _ h => lspEnds_of_ends h
  rw [advance_position hnew, ← htake, advance_position hlen, htake] at h
  exact ⟨h.1, fun heq => (h.2 heq).2⟩

/-- The texts on both sides agree on the lines before a splice only if
every `\r` there has its `\n`. -/
theorem alike_of_lineAt_eq (hnew : s.newPos ≤ newText.length)
    (hold : s.oldPos + s.deleted ≤ oldText.length)
    (hapart : splits lspBreaks (s.pending oldText newText) s.newPos = false)
    (hline : lineAt (lineBreaks false) newText s.newPos
      = lineAt lspBreaks (s.pending oldText newText) s.newPos) :
    (∀ i c, i < s.newPos → newText[i]? = some c →
      (lineBreaks false).ends c newText[i + 1]?
        = lspBreaks.ends c newText[i + 1]?) ∧
      splits lspBreaks newText s.newPos = false := by
  have hends := (lineAt_le_server hnew hold).2 hline
  -- the char before the splice is no `\r`: it would end a line there
  have hlast : ∀ q c, s.newPos = q + 1 → newText[q]? = some c →
      c ≠ '\r' := by
    rintro q c hq hat rfl
    have hq' := hends q '\r' (by rw [List.getElem?_take_of_lt (by omega), hat])
    rw [List.getElem?_eq_none
        (by rw [length_take_newPos hnew]; omega),
      Option.none_or, Option.none_or] at hq'
    have hcut : lspBreaks.joins (some '\r')
        (s.pending oldText newText)[s.newPos]? = false := by
      have := hapart
      have htake := @take_pending oldText _ _ hnew 0
      rw [List.take_zero, List.append_nil, Nat.add_zero] at htake
      unfold splits at this
      rwa [htake, List.getLast?_take, if_neg (by omega),
        show s.newPos - 1 = q by omega, hat] at this
    rw [Rule.ends_of_not_joins hcut] at hq'
    have hno : ∀ f, (lineBreaks false).ends '\r' f = false := fun f => rfl
    rw [hno] at hq'
    cases hq'
  have hfree : ∀ {c : Char} {f : Option Char}, c ≠ '\r' →
      lspBreaks.joins (some c) f = false := by
    intro c f hc
    cases f with
    | none => rfl
    | some d =>
        show (c == '\r' && d == '\n') = false
        rw [beq_eq_false_iff_ne.mpr hc]
        rfl
  constructor
  · intro i c hi hat
    have hi' := hends i c (by rw [List.getElem?_take_of_lt hi, hat])
    rcases Nat.lt_or_ge (i + 1) s.newPos with hlt | hge
    · rw [List.getElem?_take_of_lt hlt,
        List.getElem?_eq_getElem (hlt.trans_le hnew)] at hi'
      rw [List.getElem?_eq_getElem (hlt.trans_le hnew)]
      exact hi'
    · have hq : s.newPos = i + 1 := by omega
      have hc := hlast i c hq hat
      rw [List.getElem?_eq_none
          (by rw [length_take_newPos hnew]; omega),
        Option.none_or, Option.none_or,
        Rule.ends_of_not_joins (hfree hc)] at hi'
      rw [Rule.ends_of_not_joins (hfree hc), ← hi', hq]
  · unfold splits
    rw [List.getLast?_take]
    split_ifs with h0
    · rfl
    · obtain ⟨q, hq⟩ := Nat.exists_eq_add_one_of_ne_zero h0
      have hat : newText[q]? = some newText[q] :=
        List.getElem?_eq_getElem (by omega)
      rw [hq, Nat.add_sub_cancel, hat]
      exact hfree (hlast q _ hq hat)

/-- A start that the server finds is the splice's, counted alike on both
sides and on `u32`. -/
theorem start_of_named (hnew : s.newPos ≤ newText.length)
    (hold : s.oldPos + s.deleted ≤ oldText.length) {start : Position}
    (hstart : posToLspPos false newText s.newPos offsetEncoding = .ok start)
    (hnamed : serverPos offsetEncoding (s.pending oldText newText) start
      = s.newPos) :
    (∀ i c, i < s.newPos → newText[i]? = some c →
      (lineBreaks false).ends c newText[i + 1]?
        = lspBreaks.ends c newText[i + 1]?) ∧
      splits lspBreaks newText s.newPos = false ∧
      splits lspBreaks (s.pending oldText newText) s.newPos = false ∧
      start.nums = place offsetEncoding oldText newText s 0 := by
  have hw := offsetEncoding.len_pos
  have hlen : s.newPos ≤ (s.pending oldText newText).length :=
    length_pending hnew hold (Nat.zero_le _)
  have hapart : splits lspBreaks (s.pending oldText newText) s.newPos
      = false := by
    rw [← hnamed]
    exact not_splits_locate hw _ _
  rw [posToLspPos_eq hnew] at hstart
  injection hstart with hstart
  subst hstart
  unfold serverPos at hnamed
  rw [UInt32.toNat_ofNat', UInt32.toNat_ofNat'] at hnamed
  have hle := (lineAt_le_server hnew hold).1
  have hmod := Nat.mod_le (lineAt (lineBreaks false) newText s.newPos)
    (2 ^ 32)
  have hline := lineAt_locate (r := lspBreaks) hw
    (colAt (lineBreaks false) offsetEncoding.len newText s.newPos % 2 ^ 32)
    (Nat.lt_of_le_of_lt (hmod.trans hle) (lineAt_lt s.newPos))
  rw [hnamed] at hline
  have heq : lineAt (lineBreaks false) newText s.newPos
      = lineAt lspBreaks (s.pending oldText newText) s.newPos := by omega
  obtain ⟨halike, hapartNew⟩ := alike_of_lineAt_eq hnew hold hapart heq
  have hplace := @place_start offsetEncoding _ _ _ _ halike hapartNew hapart
    hnew hold
  refine ⟨halike, hapartNew, hapart, ?_⟩
  rw [← hplace]
  have hfitsLine : lineAt (lineBreaks false) newText s.newPos < 2 ^ 32 := by
    have := Nat.mod_lt (lineAt (lineBreaks false) newText s.newPos)
      (show 0 < 2 ^ 32 by decide)
    omega
  have hfitsCol : colAt (lineBreaks false) offsetEncoding.len newText
      s.newPos < 2 ^ 32 := by
    by_contra hwrap
    have hcol : colAt (lineBreaks false) offsetEncoding.len newText s.newPos
        = colAt lspBreaks offsetEncoding.len (s.pending oldText newText)
          s.newPos := congrArg Prod.snd hplace
    have hlt : colAt (lineBreaks false) offsetEncoding.len newText s.newPos
          % 2 ^ 32
        < colAt lspBreaks offsetEncoding.len (s.pending oldText newText)
          s.newPos := by
      have := Nat.mod_lt (colAt (lineBreaks false) offsetEncoding.len newText
        s.newPos) (show 0 < 2 ^ 32 by decide)
      omega
    have hback := locate_lt hlen hlt
    rw [Nat.mod_eq_of_lt hfitsLine, heq] at hnamed
    omega
  exact Prod.ext (UInt32.toNat_ofNat_of_lt' hfitsLine)
    (UInt32.toNat_ofNat_of_lt' hfitsCol)

/-- A splice whose ends the server finds is one the protocol can name. -/
theorem addressed_of_named (hnew : s.newPos ≤ newText.length)
    (hold : s.oldPos + s.deleted ≤ oldText.length) {start stop : Position}
    (hstart : posToLspPos false newText s.newPos offsetEncoding = .ok start)
    (hstop : traverse offsetEncoding start
      ((oldText.drop s.oldPos).take s.deleted) = .ok stop)
    (hnamed : serverPos offsetEncoding (s.pending oldText newText) start
      = s.newPos)
    (hnamed' : serverPos offsetEncoding (s.pending oldText newText) stop
      = s.newPos + s.deleted) :
    s.Addressed offsetEncoding false oldText newText := by
  obtain ⟨halike, hapartNew, hapart, hplace⟩ :=
    start_of_named hnew hold hstart hnamed
  have hapartStop : splits lspBreaks (s.pending oldText newText)
      (s.newPos + s.deleted) = false := by
    rw [← hnamed']
    exact not_splits_locate offsetEncoding.len_pos _ _
  have hwalks := walks_of_traverse hstop
  rw [hplace] at hwalks
  refine ⟨halike, hapartNew, hapart, ?_, ?_⟩
  · intro hpos
    obtain ⟨d, hd⟩ := Nat.exists_eq_add_one_of_ne_zero hpos.ne'
    rw [hd] at hapartStop ⊢
    rwa [splits_pending hnew hold (by omega)] at hapartStop
  · intro k hk hcut
    show Fits (place offsetEncoding oldText newText s k)
    cases k with
    | zero =>
        rw [← hplace]
        exact start.fits
    | succ k =>
        have hseam : lspBreaks.joins
            ((oldText.drop s.oldPos).take (k + 1)).getLast?
            oldText[s.oldPos + (k + 1)]? = false := by
          rw [joins_take hold hk, ← splits_pending hnew hold hk]
          exact hcut
        have hlen : k + 1
            ≤ ((oldText.drop s.oldPos).take s.deleted).length := by
          rw [List.length_take, List.length_drop]
          omega
        rw [← advance_place_take hnew hold hk hseam]
        apply hwalks (k + 1) hlen
        rw [List.take_take, Nat.min_eq_left hk]
        rcases hk.eq_or_lt with heq | hlt
        · rw [List.getElem?_eq_none
            (by rw [List.length_take]; omega)]
          cases ((oldText.drop s.oldPos).take (k + 1)).getLast? <;> rfl
        · rw [List.getElem?_take_of_lt hlt, List.getElem?_drop]
          exact hseam

end Splice

-- == the loop

theorem slice_eq_ok {text piece : Rope} {a b : Nat}
    (h : slice text a (a + b) = .ok piece) :
    a + b ≤ text.length ∧ piece = (text.drop a).take b := by
  unfold slice at h
  split at h
  case isFalse => cases h
  case isTrue hin =>
    injection h with h
    refine ⟨hin.2, ?_⟩
    rw [← h, List.drop_take, Nat.add_sub_cancel_left]

/-- A list of changes that name their splices: the splices can be
named. -/
theorem addressed_of_changesLoop {ops : List Operation} {oldPos newPos : Nat}
    {changes : List TextDocumentContentChangeEvent}
    (h : Cursor oldText newText ops oldPos newPos)
    (hchanges : changesLoop offsetEncoding false oldText newText ops oldPos
      newPos = .ok changes)
    (hnamed : List.Forall₂ (Splice.Named offsetEncoding oldText newText)
      (splices ops oldPos newPos) changes) :
    ∀ s ∈ splices ops oldPos newPos,
      s.Addressed offsetEncoding false oldText newText := by
  induction ops, oldPos, newPos using changesLoop.induct
    generalizing changes with
  | case1 oldPos newPos =>
      intro s hs
      cases hs
  | case2 i rest oldPos newPos ih =>
      rw [changesLoop] at hchanges
      rw [splices] at hnamed ⊢
      exact ih h.retain.1 hchanges hnamed
  | case3 i rest oldPos newPos ih =>
      obtain ⟨hold, hcursor, _⟩ := h.delete
      rw [changesLoop] at hchanges
      obtain ⟨start, hstart, hchanges⟩ := bind_eq_ok.mp hchanges
      obtain ⟨piece, hpiece, hchanges⟩ := bind_eq_ok.mp hchanges
      obtain ⟨stop, hstop, hchanges⟩ := bind_eq_ok.mp hchanges
      obtain ⟨tail, htail, hchanges⟩ := bind_eq_ok.mp hchanges
      injection hchanges with hchanges
      subst hchanges
      obtain ⟨_, rfl⟩ := slice_eq_ok hpiece
      rw [splices] at hnamed ⊢
      obtain ⟨⟨hn, hn', _⟩, hrest⟩ := List.forall₂_cons.mp hnamed
      exact List.forall_mem_cons.mpr
        ⟨Splice.addressed_of_named h.new hold hstart hstop hn hn',
          ih hcursor htail hrest⟩
  | case4 s len rest oldPos newPos ih =>
      obtain ⟨hold, hcursor, _⟩ := h.replace
      rw [changesLoop] at hchanges
      obtain ⟨start, hstart, hchanges⟩ := bind_eq_ok.mp hchanges
      obtain ⟨piece, hpiece, hchanges⟩ := bind_eq_ok.mp hchanges
      obtain ⟨stop, hstop, hchanges⟩ := bind_eq_ok.mp hchanges
      obtain ⟨tail, htail, hchanges⟩ := bind_eq_ok.mp hchanges
      injection hchanges with hchanges
      subst hchanges
      obtain ⟨_, rfl⟩ := slice_eq_ok hpiece
      rw [splices] at hnamed ⊢
      obtain ⟨⟨hn, hn', _⟩, hrest⟩ := List.forall₂_cons.mp hnamed
      exact List.forall_mem_cons.mpr
        ⟨Splice.addressed_of_named h.new hold hstart hstop hn hn',
          ih hcursor htail hrest⟩
  | case5 s rest oldPos newPos hne ih =>
      obtain ⟨hold, hcursor, _⟩ := h.insert
      rw [changesLoop_insert hne] at hchanges
      obtain ⟨start, hstart, hchanges⟩ := bind_eq_ok.mp hchanges
      obtain ⟨tail, htail, hchanges⟩ := bind_eq_ok.mp hchanges
      injection hchanges with hchanges
      subst hchanges
      rw [splices_insert hne] at hnamed ⊢
      obtain ⟨⟨hn, hn', _⟩, hrest⟩ := List.forall₂_cons.mp hnamed
      exact List.forall_mem_cons.mpr
        ⟨Splice.addressed_of_named h.new hold hstart rfl hn hn',
          ih hcursor htail hrest⟩

-- == law

/-- A change set that turns the old text into the new one starts the
cursors. -/
theorem cursor_of_carries {changeset : ChangeSet}
    (h : changeset.Carries oldText newText) :
    Cursor oldText newText changeset.changes 0 0 := by
  have hlen := h.valid.oldLen_le
  rw [h.len] at hlen
  exact ⟨by omega, Nat.zero_le _, by
    rw [List.drop_zero, List.drop_zero, h.run]⟩

/-- If every splice of the change set can be named, the changes take the
server from the old text to the new one; without `unicode-lines`, the
changes name their splices exactly then. -/
theorem changes_law {offsetEncoding : OffsetEncoding}
    {oldText newText : Rope} {changeset : ChangeSet}
    (h : changeset.Carries oldText newText) :
    (∀ unicodeLines,
      (∀ s ∈ splices changeset.changes 0 0,
        s.Addressed offsetEncoding unicodeLines oldText newText) →
      ∃ changes, changesetToChanges offsetEncoding unicodeLines oldText
          newText changeset = .ok changes ∧
        serverChanges offsetEncoding oldText changes = newText) ∧
    ((∃ changes, changesetToChanges offsetEncoding false oldText newText
          changeset = .ok changes ∧
        List.Forall₂ (Splice.Named offsetEncoding oldText newText)
          (splices changeset.changes 0 0) changes) ↔
      ∀ s ∈ splices changeset.changes 0 0,
        s.Addressed offsetEncoding false oldText newText) := by
  have hcursor := cursor_of_carries h
  refine ⟨fun unicodeLines hs => ?_, ?_, fun hs => ?_⟩
  · obtain ⟨changes, hchanges, _, hserver⟩ := changesLoop_spec hcursor hs
    exact ⟨changes, hchanges, hserver⟩
  · rintro ⟨changes, hchanges, hnamed⟩
    exact addressed_of_changesLoop hcursor hchanges hnamed
  · obtain ⟨changes, hchanges, hnamed, _⟩ := changesLoop_spec hcursor hs
    exact ⟨changes, hchanges, hnamed⟩

/-- The law on a text with a `\r\n`, an `x` put after it. -/
theorem changes_law_insert :
    ∃ changes, changesetToChanges .utf16 false ['\r', '\n', 'b']
        ['\r', '\n', 'x', 'b'] ⟨[.retain 2, .insert ['x'], .retain 1], 3, 4⟩
          = .ok changes ∧
      serverChanges .utf16 ['\r', '\n', 'b'] changes
        = ['\r', '\n', 'x', 'b'] := by
  have hcarries : ChangeSet.Carries
      ⟨[.retain 2, .insert ['x'], .retain 1], 3, 4⟩ ['\r', '\n', 'b']
      ['\r', '\n', 'x', 'b'] := ⟨.inl ⟨rfl, rfl, by decide⟩, rfl, rfl⟩
  refine (changes_law hcarries).1 false ?_
  intro s hs
  obtain rfl : s = ⟨2, 2, 0, ['x']⟩ := by simpa [splices] using hs
  refine ⟨?_, by decide, by decide, by decide, ?_⟩
  · intro i c hi hat
    rcases i with _ | _ | i
    · cases hat
      rfl
    · cases hat
      rfl
    · exact absurd hi (by simp)
  · intro k hk
    obtain rfl : k = 0 := Nat.le_zero.mp hk
    decide

/-- A text with a lone `\r`, an `x` put at its end: the server puts it at
the end of its first line. -/
theorem not_changes_law_lone_cr :
    ¬ ∀ (offsetEncoding : OffsetEncoding) (unicodeLines : Bool)
      (oldText newText : Rope) (changeset : ChangeSet),
      changeset.Carries oldText newText →
        ∃ changes, changesetToChanges offsetEncoding unicodeLines oldText
            newText changeset = .ok changes ∧
          serverChanges offsetEncoding oldText changes = newText := by
  intro h
  obtain ⟨changes, hchanges, hserver⟩ := h .utf16 false ['a', '\r', 'b']
    ['a', '\r', 'b', 'x'] ⟨[.retain 3, .insert ['x']], 3, 4⟩
    ⟨.inl ⟨rfl, rfl, by decide⟩, rfl, rfl⟩
  have hemit : changesetToChanges .utf16 false ['a', '\r', 'b']
      ['a', '\r', 'b', 'x'] ⟨[.retain 3, .insert ['x']], 3, 4⟩
        = .ok [⟨⟨⟨0, 3⟩, ⟨0, 3⟩⟩, ['x']⟩] := by decide
  rw [hemit] at hchanges
  injection hchanges with hchanges
  subst hchanges
  exact absurd hserver (by decide)

end Zmax.Lsp
