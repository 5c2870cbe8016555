/-
What scanning a line does, as a relation that composes.

`Marks s cells t` says that the cells, read from `s` on, are marked as a
scan marks them, that no comment starts among them, and that they end at
`t`. A scanned line is such cells and a comment (`scanLine_reads`), and
cells so marked are what a scan of their chars finds
(`scanLine_of_reads`).
-/
import Zmax.Term.Keeping

namespace Zmax.Parinfer

/-- Where a scan is: inside a string or not, behind a backslash or not. -/
structure Pos where
  inString : Bool
  escaped : Bool
  deriving DecidableEq

inductive Marks : Pos → List Cell → Pos → Prop
  | nil (s : Pos) : Marks s [] s
  | escaped {inString : Bool} {cells : List Cell} {t : Pos} (c : Char) :
      Marks ⟨inString, false⟩ cells t →
      Marks ⟨inString, true⟩ (⟨c, false⟩ :: cells) t
  | backslash {inString : Bool} {cells : List Cell} {t : Pos} :
      Marks ⟨inString, true⟩ cells t →
      Marks ⟨inString, false⟩ (⟨'\\', false⟩ :: cells) t
  | quote {inString : Bool} {cells : List Cell} {t : Pos} :
      Marks ⟨!inString, false⟩ cells t →
      Marks ⟨inString, false⟩ (⟨'"', false⟩ :: cells) t
  | plain {inString : Bool} {cells : List Cell} {t : Pos} {c : Char} :
      c ≠ '\\' → c ≠ '"' → (c = ';' → inString = true) →
      Marks ⟨inString, false⟩ cells t →
      Marks ⟨inString, false⟩ (⟨c, !inString⟩ :: cells) t

/-- A line of marked cells and a comment, that ends at `t`. -/
structure Reads (l : LineScan) (code : List Cell) (comment : Tendril)
    (t : Pos) : Prop where
  cells : l.cells = code ++ inert comment
  marks : Marks ⟨l.startsInString, false⟩ code t
  ends : l.endsInString = t.inString
  commentAt : comment = [] ∧ l.commentAt = none
    ∨ t = ⟨false, false⟩ ∧ l.commentAt = some code.length
      ∧ ∃ rest, comment = ';' :: rest

variable {s t u : Pos} {cells cells' code : List Cell} {comment : Tendril}
  {l : LineScan}

-- == composing

theorem chars_append (xs ys : List Cell) :
    chars (xs ++ ys) = chars xs ++ chars ys := List.map_append

theorem length_chars (cells : List Cell) :
    (chars cells).length = cells.length := List.length_map _

@[simp] theorem chars_inert (text : Tendril) : chars (inert text) = text := by
  unfold chars inert
  rw [List.map_map]
  exact List.map_id _

theorem Marks.append (h : Marks s cells t) (h' : Marks t cells' u) :
    Marks s (cells ++ cells') u := by
  induction h with
  | nil s => exact h'
  | escaped c _ ih => exact .escaped c (ih h')
  | backslash _ ih => exact .backslash (ih h')
  | quote _ ih => exact .quote (ih h')
  | plain h₁ h₂ h₃ _ ih => exact .plain h₁ h₂ h₃ (ih h')

theorem Marks.split (h : Marks s (cells ++ cells') u) :
    ∃ t, Marks s cells t ∧ Marks t cells' u := by
  induction cells generalizing s with
  | nil => exact ⟨s, .nil s, h⟩
  | cons cell cells ih =>
      cases h with
      | escaped c h =>
          obtain ⟨t, h, h'⟩ := ih h
          exact ⟨t, .escaped c h, h'⟩
      | backslash h =>
          obtain ⟨t, h, h'⟩ := ih h
          exact ⟨t, .backslash h, h'⟩
      | quote h =>
          obtain ⟨t, h, h'⟩ := ih h
          exact ⟨t, .quote h, h'⟩
      | plain h₁ h₂ h₃ h =>
          obtain ⟨t, h, h'⟩ := ih h
          exact ⟨t, .plain h₁ h₂ h₃ h, h'⟩

/-- A live cell changes nothing about where the scan is. -/
theorem Marks.of_live {cell : Cell} (hlive : cell.live = true)
    (h : Marks s (cell :: cells) t) :
    s = ⟨false, false⟩ ∧ Marks s cells t := by
  cases h with
  | escaped c h => cases hlive
  | backslash h => cases hlive
  | quote h => cases hlive
  | plain h₁ h₂ h₃ h =>
      rw [Bool.not_eq_true'] at hlive
      subst hlive
      exact ⟨rfl, h⟩

-- == marking texts

theorem Marks.escapedAfter (h : Marks s cells t) :
    t.escaped = escapedAfter s.escaped (chars cells) := by
  induction h with
  | nil s => rfl
  | escaped c _ ih => exact ih
  | backslash _ ih => exact ih
  | quote _ ih => exact ih
  | plain h₁ _ _ _ ih =>
      rw [ih]
      show Parinfer.escapedAfter false _ = Parinfer.escapedAfter (_ == _) _
      rw [beq_false_of_ne h₁]
      rfl

/-- Only a quote changes whether a scan is in a string. -/
theorem Marks.inString_of_quote (h : Marks s cells t)
    (hquote : ∀ cell ∈ cells, cell.char ≠ '"') :
    t.inString = s.inString := by
  induction h with
  | nil s => rfl
  | escaped c _ ih =>
      exact ih fun cell hcell => hquote cell (List.mem_cons_of_mem _ hcell)
  | backslash _ ih =>
      exact ih fun cell hcell => hquote cell (List.mem_cons_of_mem _ hcell)
  | quote _ _ => exact absurd rfl (hquote _ List.mem_cons_self)
  | plain _ _ _ _ ih =>
      exact ih fun cell hcell => hquote cell (List.mem_cons_of_mem _ hcell)

theorem isWhitespace_ne {c : Char} (h : Text.isWhitespace c = true) :
    c ≠ '\\' ∧ c ≠ '"' ∧ c ≠ ';' ∧ isOpen c = false ∧ isClose c = false := by
  refine ⟨?_, ?_, ?_, ?_, ?_⟩
  · rintro rfl
    cases h
  · rintro rfl
    cases h
  · rintro rfl
    cases h
  · cases hc : isOpen c with
    | false => rfl
    | true =>
        unfold isOpen at hc
        simp only [Bool.or_eq_true, beq_iff_eq] at hc
        rcases hc with (rfl | rfl) | rfl <;> cases h
  · cases hc : isClose c with
    | false => rfl
    | true =>
        unfold isClose at hc
        simp only [Bool.or_eq_true, beq_iff_eq] at hc
        rcases hc with (rfl | rfl) | rfl <;> cases h

/-- Whitespace can be marked anywhere, and ends an escape. -/
theorem marks_whitespace (s : Pos) (text : Tendril)
    (h : ∀ c ∈ text, Text.isWhitespace c = true) :
    ∃ cells t, Marks s cells t ∧ chars cells = text
      ∧ t.inString = s.inString ∧ (text = [] → t = s)
      ∧ (text ≠ [] ∨ s.escaped = false → t.escaped = false) := by
  induction text generalizing s with
  | nil =>
      exact ⟨[], s, .nil s, rfl, rfl, fun _ => rfl,
        fun h => h.elim (fun h => absurd rfl h) id⟩
  | cons c text ih =>
      obtain ⟨cells, t, hm, hchars, hin, -, hesc⟩ := ih ⟨s.inString, false⟩
        fun d hd => h d (List.mem_cons_of_mem _ hd)
      have hescaped := hesc (.inr rfl)
      obtain ⟨inString, escaped⟩ := s
      cases escaped with
      | true =>
          exact ⟨⟨c, false⟩ :: cells, t, .escaped c hm,
            congrArg (c :: ·) hchars, hin, nofun, fun _ => hescaped⟩
      | false =>
          obtain ⟨h₁, h₂, h₃, -, -⟩ := isWhitespace_ne
            (h c List.mem_cons_self)
          exact ⟨⟨c, !inString⟩ :: cells, t,
            .plain h₁ h₂ (fun hc => absurd hc h₃) hm,
            congrArg (c :: ·) hchars, hin, nofun, fun _ => hescaped⟩

def allLive (text : Tendril) : List Cell := text.map fun c => ⟨c, true⟩

@[simp] theorem chars_allLive (text : Tendril) :
    chars (allLive text) = text := by
  unfold chars allLive
  rw [List.map_map]
  exact List.map_id _

theorem isClose_ne {c : Char} (h : isClose c = true) :
    c ≠ '\\' ∧ c ≠ '"' ∧ c ≠ ';' ∧ isOpen c = false := by
  unfold isClose at h
  simp only [Bool.or_eq_true, beq_iff_eq] at h
  rcases h with (rfl | rfl) | rfl <;> decide

/-- Closers are live outside of strings. -/
theorem marks_closers (text : Tendril)
    (h : ∀ c ∈ text, isClose c = true) :
    Marks ⟨false, false⟩ (allLive text) ⟨false, false⟩ := by
  induction text with
  | nil => exact .nil _
  | cons c text ih =>
      obtain ⟨h₁, h₂, h₃, -⟩ := isClose_ne (h c List.mem_cons_self)
      exact .plain h₁ h₂ (fun hc => absurd hc h₃)
        (ih fun d hd => h d (List.mem_cons_of_mem _ hd))

-- == a line

theorem scanChars_spec (inString escaped : Bool) (i : Nat) (cs : Tendril) :
    ∃ code comment t,
      (scanChars inString escaped i cs).cells = code ++ inert comment
      ∧ cs = chars code ++ comment
      ∧ Marks ⟨inString, escaped⟩ code t
      ∧ (scanChars inString escaped i cs).inString = t.inString
      ∧ (comment = [] ∧ (scanChars inString escaped i cs).commentAt = none
        ∨ t = ⟨false, false⟩
          ∧ (scanChars inString escaped i cs).commentAt
            = some (i + code.length)
          ∧ ∃ rest, comment = ';' :: rest) := by
  induction cs generalizing inString escaped i with
  | nil =>
      exact ⟨[], [], ⟨inString, escaped⟩, rfl, rfl, .nil _, rfl,
        .inl ⟨rfl, rfl⟩⟩
  | cons c cs ih =>
      -- one cell in front of what is read behind it
      have hpush : ∀ {cell : Cell} {inString' escaped' : Bool},
          cell.char = c →
          scanChars inString escaped i (c :: cs)
            = (scanChars inString' escaped' (i + 1) cs).push cell →
          (∀ {code : List Cell} {t : Pos},
            Marks ⟨inString', escaped'⟩ code t →
            Marks ⟨inString, escaped⟩ (cell :: code) t) →
          ∃ code comment t,
            (scanChars inString escaped i (c :: cs)).cells
              = code ++ inert comment
            ∧ c :: cs = chars code ++ comment
            ∧ Marks ⟨inString, escaped⟩ code t
            ∧ (scanChars inString escaped i (c :: cs)).inString = t.inString
            ∧ (comment = []
                ∧ (scanChars inString escaped i (c :: cs)).commentAt = none
              ∨ t = ⟨false, false⟩
                ∧ (scanChars inString escaped i (c :: cs)).commentAt
                  = some (i + code.length)
                ∧ ∃ rest, comment = ';' :: rest) := by
        intro cell inString' escaped' hchar heq hmarks
        obtain ⟨code, comment, t, hcells, hcs, hm, hin, hcomment⟩ :=
          ih inString' escaped' (i + 1)
        refine ⟨cell :: code, comment, t, ?_, ?_, hmarks hm, ?_, ?_⟩
        · rw [heq]
          exact congrArg (cell :: ·) hcells
        · rw [hcs, ← hchar]
          rfl
        · rw [heq]
          exact hin
        · rw [heq]
          refine hcomment.imp id fun ⟨ht, hat, hrest⟩ => ⟨ht, ?_, hrest⟩
          rw [List.length_cons, Nat.add_comm code.length, ← Nat.add_assoc]
          exact hat
      by_cases hesc : escaped = true
      · subst hesc
        exact @hpush ⟨c, false⟩ inString false rfl (by simp [scanChars])
          (.escaped c)
      · have hesc := Bool.eq_false_iff.mpr hesc
        subst hesc
        by_cases hback : c = '\\'
        · subst hback
          exact @hpush ⟨'\\', false⟩ inString true rfl (by simp [scanChars])
            .backslash
        · by_cases hquote : c = '"'
          · subst hquote
            exact @hpush ⟨'"', false⟩ (!inString) false rfl
              (by simp [scanChars]) .quote
          · by_cases hsemi : c = ';' ∧ inString = false
            · obtain ⟨rfl, rfl⟩ := hsemi
              exact ⟨[], ';' :: cs, ⟨false, false⟩, by simp [scanChars],
                rfl, .nil _, by simp [scanChars],
                .inr ⟨rfl, by simp [scanChars], cs, rfl⟩⟩
            · refine @hpush ⟨c, !inString⟩ inString false rfl ?_
                (.plain hback hquote fun hc => ?_)
              · simp [scanChars, hback, hquote, hsemi]
              · exact Bool.of_not_eq_false fun h => hsemi ⟨hc, h⟩

theorem scanChars_of_marks {i : Nat} (h : Marks s code t)
    (hcomment : comment = []
      ∨ t = ⟨false, false⟩ ∧ ∃ rest, comment = ';' :: rest) :
    scanChars s.inString s.escaped i (chars code ++ comment)
      = ⟨code ++ inert comment,
        if comment = [] then none else some (i + code.length),
        t.inString⟩ := by
  induction h generalizing i with
  | nil s =>
      rcases hcomment with rfl | ⟨rfl, rest, rfl⟩
      · rfl
      · rw [if_neg (List.cons_ne_nil _ _)]
        simp [scanChars, chars]
  | escaped c _ ih =>
      have := @ih (i + 1) hcomment
      simp only [chars, List.map_cons, List.cons_append, scanChars] at this ⊢
      rw [this]
      simp [Scanned.push, Nat.add_assoc, Nat.add_comm 1]
  | backslash _ ih =>
      have := @ih (i + 1) hcomment
      simp only [chars, List.map_cons, List.cons_append, scanChars] at this ⊢
      simp [Scanned.push, Nat.add_assoc, Nat.add_comm 1, this]
  | quote _ ih =>
      have := @ih (i + 1) hcomment
      simp only [chars, List.map_cons, List.cons_append, scanChars] at this ⊢
      simp [Scanned.push, Nat.add_assoc, Nat.add_comm 1, this]
  | @plain inString cells t c h₁ h₂ h₃ _ ih =>
      have := @ih (i + 1) hcomment
      have h₄ : ¬ (c = ';' ∧ inString = false) := by
        rintro ⟨hc, hin⟩
        cases hin.symm.trans (h₃ hc)
      simp only [chars, List.map_cons, List.cons_append, scanChars] at this ⊢
      simp [Scanned.push, Nat.add_assoc, Nat.add_comm 1, this, h₁, h₂, h₄]

theorem scanLine_reads (inString : Bool) (raw : Tendril) :
    ∃ code comment t, Reads (scanLine inString raw) code comment t
      ∧ raw = chars code ++ comment := by
  obtain ⟨code, comment, t, hcells, hraw, hm, hin, hcomment⟩ :=
    scanChars_spec inString false 0 raw
  rw [Nat.zero_add] at hcomment
  exact ⟨code, comment, t, ⟨hcells, hm, hin, hcomment⟩, hraw⟩

theorem scanLine_of_marks {inString : Bool}
    (h : Marks ⟨inString, false⟩ code t)
    (hcomment : comment = []
      ∨ t = ⟨false, false⟩ ∧ ∃ rest, comment = ';' :: rest) :
    Reads (scanLine inString (chars code ++ comment)) code comment t := by
  have heq := @scanChars_of_marks _ _ code comment 0 h hcomment
  unfold scanLine
  rw [heq]
  refine ⟨rfl, h, rfl, ?_⟩
  rcases hcomment with hnil | ⟨ht, rest, hrest⟩
  · exact .inl ⟨hnil, if_pos hnil⟩
  · refine .inr ⟨ht, ?_, rest, hrest⟩
    dsimp only
    rw [if_neg (hrest ▸ List.cons_ne_nil _ _), Nat.zero_add]

theorem Reads.comment_cases (h : Reads l code comment t) : comment = []
    ∨ t = ⟨false, false⟩ ∧ ∃ rest, comment = ';' :: rest :=
  h.commentAt.imp And.left fun ⟨ht, _, hrest⟩ => ⟨ht, hrest⟩

theorem Reads.codeEnd (h : Reads l code comment t) :
    codeEnd l = code.length := by
  unfold Parinfer.codeEnd
  rcases h.commentAt with ⟨rfl, hat⟩ | ⟨-, hat, -⟩
  · rw [hat, h.cells, Option.getD_none]
    exact congrArg List.length (List.append_nil code)
  · rw [hat, Option.getD_some]

theorem Reads.take_codeEnd (h : Reads l code comment t) :
    l.cells.take (Parinfer.codeEnd l) = code := by
  rw [h.codeEnd, h.cells, List.take_left]

theorem Reads.drop_codeEnd (h : Reads l code comment t) :
    chars (l.cells.drop (Parinfer.codeEnd l)) = comment := by
  rw [h.codeEnd, h.cells, List.drop_left, chars_inert]

/-- A line that was scanned is scanned to the same cells again. -/
theorem Reads.rescan (h : Reads l code comment t) :
    scanLine l.startsInString (chars l.cells) = l := by
  have heq := @scanChars_of_marks _ _ code comment 0 h.marks h.comment_cases
  unfold scanLine
  rw [h.cells, chars_append, chars_inert, heq]
  obtain ⟨hcells, hm, hends, hat⟩ := h
  obtain ⟨cells, commentAt, starts, ends⟩ := l
  dsimp only at hcells hends hat ⊢
  rw [hcells, hends]
  rcases hat with ⟨hnil, hat⟩ | ⟨-, hat, rest, hrest⟩
  · rw [if_pos hnil, hat]
  · rw [if_neg (hrest ▸ List.cons_ne_nil _ _), hat, Nat.zero_add]

end Zmax.Parinfer
