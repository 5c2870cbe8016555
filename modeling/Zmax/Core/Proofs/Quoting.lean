/-
Quoted text comes back from the tokenizer as it was.

Between two quotes in a row the loop copies what it has passed with the first
of them, so the induction is on the text, cut at its first quote.
-/
import Zmax.Core.Proofs.Tokenizer

namespace Zmax.CommandLine

open Utf8

def Quote.byte (q : Quote) : UInt8 := CommandLine.byte q.char

/-- A text with its quotes doubled. -/
def Quote.double (q : Quote) (text : List Char) : List Char :=
  text.flatMap fun c => if c = q.char then q.escape else [c]

def Quote.wrap (q : Quote) (text : List Char) : List Char :=
  q.char :: (q.double text ++ [q.char])

/-- Quoted arguments, each with the blanks in front of it. -/
def joined (args : List (List Char × Quote × List Char)) : List Char :=
  args.flatMap fun (blanks, q, text) => blanks ++ q.wrap text

-- == one argument

theorem double_append (q : Quote) (s t : List Char) :
    q.double (s ++ t) = q.double s ++ q.double t := List.flatMap_append

theorem double_of_not_mem {q : Quote} {text : List Char}
    (h : q.char ∉ text) : q.double text = text := by
  induction text with
  | nil => rfl
  | cons c text ih =>
      rw [List.mem_cons, not_or] at h
      unfold Quote.double at ih ⊢
      rw [List.flatMap_cons, if_neg (Ne.symm h.1), ih h.2]
      rfl

theorem encode_quote (q : Quote) (text : List Char) :
    encode (q.char :: text) = q.byte :: encode text := by
  cases q <;> rfl

theorem quote_ascii (q : Quote) : (q.byte).toNat < 128 := by
  cases q <;> decide

theorem quote_not_mem {q : Quote} {text : List Char} (h : q.char ∉ text) :
    q.byte ∉ encode text := by
  intro hmem
  have := mem_of_mem_encode hmem (quote_ascii q)
  cases q <;> exact h this

theorem idxOf_quote {b : UInt8} {pre post : Str} (h : b ∉ pre) :
    (pre ++ b :: post).idxOf? b = some pre.length := by
  have hnone : pre.findIdx? (· == b) = none := by
    rw [List.findIdx?_eq_none_iff]
    intro x hx
    rw [beq_eq_false_iff_ne]
    rintro rfl
    exact h hx
  unfold List.idxOf?
  rw [List.findIdx?_append, hnone]
  simp [List.findIdx?_cons]

namespace Tokenizer

theorem drop_add {s : Str} {pos : Nat} {pre post : Str}
    (h : s.drop pos = pre ++ post) : s.drop (pos + pre.length) = post := by
  rw [← List.drop_drop, h, List.drop_left]

theorem getElem?_add {s : Str} {pos : Nat} {pre post : Str}
    (h : s.drop pos = pre ++ post) : s[pos + pre.length]? = post.head? := by
  rw [← List.head?_drop, drop_add h]

theorem quotedLoop_double {s : Str} (hs : Whole s) {q : Quote}
    {text : List Char} {post : Str} (hpost : post.head? ≠ some (q.byte))
    {fuel : Nat} (escaped : Str) {pos : Nat}
    (hpos : isCharBoundary s pos = true) (hfuel : s.length < fuel + pos)
    (hdrop : s.drop pos = encode (q.double text) ++ q.byte :: post) :
    quotedLoop s (q.byte) fuel escaped pos =
      .ok (escaped ++ encode text, true,
        pos + (encode (q.double text)).length + 1) := by
  have hle := boundary_le hpos
  induction fuel generalizing text escaped pos with
  | zero => omega
  | succ fuel ih =>
      unfold quotedLoop
      rw [sliceStr_tail hpos, ok_bind, hdrop]
      by_cases hmem : q.char ∈ text
      · obtain ⟨a, b, rfl, ha⟩ := List.eq_append_cons_of_mem hmem
        have hdouble : encode (q.double (a ++ q.char :: b)) =
            encode a ++ q.byte :: q.byte :: encode (q.double b) := by
          rw [double_append, double_of_not_mem ha, encode_append]
          unfold Quote.double
          rw [List.flatMap_cons, if_pos rfl, encode_append]
          cases q <;> rfl
        rw [hdouble, List.append_assoc, List.cons_append, List.cons_append]
          at hdrop
        rw [hdouble, List.append_assoc, List.cons_append, List.cons_append,
          idxOf_quote (quote_not_mem ha)]
        have hfirst := getElem?_add hdrop
        have hdrop₁ := @drop_add s pos (encode a ++ [q.byte]) _
          (by rw [hdrop, List.append_assoc]; rfl)
        have hdrop₂ := @drop_add s pos (encode a ++ [q.byte, q.byte]) _
          (by rw [hdrop, List.append_assoc]; rfl)
        have hsecond : s[pos + (encode a).length + 1]? = some q.byte := by
          rw [← List.head?_drop]
          simpa [Nat.add_assoc] using congrArg List.head? hdrop₁
        rw [List.head?_cons] at hfirst
        have hafter := (boundary_after hs hsecond (quote_ascii q)).2
        have hbound := (boundary_after hs hfirst (quote_ascii q)).2
        have hrest := @ih b (escaped ++ (encode a ++ [q.byte]))
          (pos + (encode a).length + 2) hafter (by omega)
          (by simpa [Nat.add_assoc] using hdrop₂) (boundary_le hafter)
        have hpiece : ((encode a ++ q.byte :: q.byte ::
            (encode (q.double b) ++ q.byte :: post)).take
              (pos + (encode a).length + 1 - pos)) = encode a ++ [q.byte] := by
          rw [Nat.add_assoc, Nat.add_sub_cancel_left, List.take_length_add_append]
          rfl
        simp only
        rw [if_pos hsecond, sliceStr_of (by omega) hpos hbound, ok_bind, hdrop,
          hpiece, hrest]
        rw [encode_append, encode_quote]
        simp only [List.append_assoc, List.cons_append, List.nil_append,
          List.length_append, List.length_cons]
        refine congrArg _ (Prod.ext rfl (Prod.ext rfl ?_))
        simp only
        omega
      · rw [double_of_not_mem hmem] at hdrop ⊢
        have hidx := getElem?_add hdrop
        have hnext : s[pos + (encode text).length + 1]? = post.head? := by
          have := @getElem?_add s pos (encode text ++ [q.byte]) post
            (by rw [hdrop, List.append_assoc]; rfl)
          rwa [List.length_append, List.length_singleton, ← Nat.add_assoc]
            at this
        rw [List.head?_cons] at hidx
        rw [idxOf_quote (quote_not_mem hmem)]
        simp only
        rw [hnext, if_neg hpost, sliceStr_of (by omega) hpos
          (boundary_ascii hidx (quote_ascii q)), hdrop, Nat.add_sub_cancel_left,
          List.take_left]
        rfl

/-- One quoted argument, with what is behind it left. -/
theorem next_quoted {t : Tokenizer} (ht : t.Sound) {blanks : Str} {q : Quote}
    {text : List Char} {post : Str} (hblanks : ∀ b ∈ blanks, isBlank b = true)
    (hpost : post.head? ≠ some q.byte)
    (hdrop : t.input.drop t.pos = blanks ++ (encode (q.wrap text) ++ post)) :
    ∃ token stop, t.next = .ok (some (.ok token), { t with pos := stop }) ∧
      Sound { t with pos := stop } ∧ t.pos < stop ∧
      t.input.drop stop = post ∧
      token.kind = .quoted q ∧ token.content = encode text ∧
      token.isTerminated = true := by
  have hwrap : encode (q.wrap text) ++ post =
      q.byte :: (encode (q.double text) ++ q.byte :: post) := by
    unfold Quote.wrap
    rw [encode_quote, encode_append, List.cons_append, List.append_assoc]
    cases q <;> rfl
  rw [hwrap] at hdrop
  have hnonblank : isBlank q.byte = false := by cases q <;> decide
  have hskip : t.skipBlanks = { t with pos := t.pos + blanks.length } := by
    unfold skipBlanks
    rw [hdrop, List.takeWhile_append_of_pos hblanks, List.takeWhile_cons,
      hnonblank]
    simp
  have hsound := (skipBlanks_spec ht).1
  have hquote : t.input[t.pos + blanks.length]? = some q.byte :=
    getElem?_add hdrop
  have hdrop₁ : t.input.drop (t.pos + blanks.length + 1) =
      encode (q.double text) ++ q.byte :: post := by
    have := @drop_add t.input t.pos (blanks ++ [q.byte]) _
      (by rw [hdrop, List.append_assoc]; rfl)
    rwa [List.length_append, List.length_singleton, ← Nat.add_assoc] at this
  have hdrop₂ : t.input.drop (t.pos + blanks.length + 1 +
      (encode (q.double text)).length + 1) = post := by
    have := @drop_add t.input (t.pos + blanks.length + 1)
      (encode (q.double text) ++ [q.byte]) post
      (by rw [hdrop₁, List.append_assoc]; rfl)
    rwa [List.length_append, List.length_singleton, ← Nat.add_assoc] at this
  have hclose : t.input[t.pos + blanks.length + 1 +
      (encode (q.double text)).length]? = some q.byte := getElem?_add hdrop₁
  have hopen := boundary_after ht.whole hquote (quote_ascii q)
  have hlt := (List.getElem?_eq_some_iff.mp hquote).1
  have hloop := @quotedLoop_double t.input ht.whole q text post hpost
    t.input.length [] (t.pos + blanks.length + 1) hopen.2 (by omega) hdrop₁
  have hkind : quoteKind q.byte = some (.quoted q) := by cases q <;> rfl
  have hbyte : ({ t with pos := t.pos + blanks.length } : Tokenizer).byte =
      some q.byte := hquote
  refine ⟨⟨.quoted q, t.pos + blanks.length + 1, encode text, true⟩,
    t.pos + blanks.length + 1 + (encode (q.double text)).length + 1,
    ?_, ⟨ht.whole, (boundary_after ht.whole hclose (quote_ascii q)).2⟩,
    by omega, hdrop₂, rfl, rfl, rfl⟩
  have hparse : ({ t with pos := t.pos + blanks.length } :
      Tokenizer).parseQuoted q.byte = .ok (encode text, true, { t with
        pos := t.pos + blanks.length + 1 +
          (encode (q.double text)).length + 1 }) := by
    unfold parseQuoted
    rw [decide_eq_true hbyte, assert_true, ok_bind, hloop]
    rfl
  unfold next
  rw [hskip]
  simp only [hbyte, hkind, hparse, ok_bind, not_true_eq_false, and_false,
    if_false]
  rfl

theorem encode_blanks {blanks : List Char}
    (h : ∀ c ∈ blanks, c = ' ' ∨ c = '\t') :
    ∀ b ∈ encode blanks, isBlank b = true := by
  intro b hb
  obtain ⟨c, hc, hb⟩ := List.mem_flatMap.mp hb
  rcases h c hc with rfl | rfl
  · rw [List.mem_singleton.mp hb]
    decide
  · rw [List.mem_singleton.mp hb]
    decide

/-- Behind an argument there is a blank, or nothing. -/
theorem joined_head {args : List (List Char × Quote × List Char)}
    (hblanks : ∀ a ∈ args, ∀ c ∈ a.1, c = ' ' ∨ c = '\t')
    (hsep : ∀ a ∈ args, a.1 ≠ []) (q : Quote) :
    (encode (joined args)).head? ≠ some q.byte := by
  cases args with
  | nil => simp [joined]
  | cons a args =>
      obtain ⟨blanks, q', text⟩ := a
      obtain ⟨c, rest, rfl⟩ :=
        List.exists_cons_of_ne_nil (hsep _ List.mem_cons_self)
      have hc : c = ' ' ∨ c = '\t' :=
        hblanks _ List.mem_cons_self c List.mem_cons_self
      intro h
      have hhead : (encode [c]).head? = some q.byte := by
        unfold joined at h
        rw [List.flatMap_cons, encode_append, encode_append, encode_cons] at h
        rcases hc with rfl | rfl
        · exact h
        · exact h
      rcases hc with rfl | rfl
      · cases q <;> exact absurd hhead (by decide)
      · cases q <;> exact absurd hhead (by decide)

theorem collect_joined {args : List (List Char × Quote × List Char)}
    (hblanks : ∀ a ∈ args, ∀ c ∈ a.1, c = ' ' ∨ c = '\t')
    (hsep : ∀ a ∈ args.tail, a.1 ≠ []) {fuel : Nat} {t : Tokenizer}
    (ht : t.Sound) (hfuel : t.input.length < fuel + t.pos)
    (hdrop : t.input.drop t.pos = encode (joined args)) :
    ∃ tokens : List Token, collect fuel t = .ok (tokens.map .ok) ∧
      tokens.map (fun token => (token.kind, token.content)) =
        args.map (fun (_, q, text) => (TokenKind.quoted q, encode text)) ∧
      ∀ token ∈ tokens, token.isTerminated = true := by
  have hle := boundary_le ht.boundary
  induction args generalizing fuel t with
  | nil =>
      cases fuel with
      | zero => omega
      | succ fuel =>
          have hskip : t.skipBlanks = t := by
            unfold skipBlanks
            rw [hdrop]
            rfl
          have hbyte : t.byte = none := by
            unfold Tokenizer.byte
            rw [← List.head?_drop, hdrop]
            rfl
          refine ⟨[], ?_, rfl, by simp⟩
          unfold collect next
          rw [hskip]
          simp only [hbyte]
          rfl
  | cons a args ih =>
      cases fuel with
      | zero => omega
      | succ fuel =>
          obtain ⟨blanks, q, text⟩ := a
          obtain ⟨hblank, hblanks⟩ := List.forall_mem_cons.mp hblanks
          have hsep : ∀ a ∈ args, a.1 ≠ [] := hsep
          have hcons : encode (joined ((blanks, q, text) :: args)) =
              encode blanks ++ (encode (q.wrap text) ++ encode (joined args)) := by
            rw [← encode_append, ← encode_append]
            simp [joined]
          obtain ⟨token, stop, hnext, hsound, hlt, hrest, hkind, hcontent,
            hterm⟩ := next_quoted ht (encode_blanks hblank)
              (joined_head hblanks hsep q) (hdrop.trans hcons)
          obtain ⟨tokens, hcollect, hmap, hall⟩ := ih hblanks
            (fun x hx => hsep x (List.mem_of_mem_tail hx)) hsound
            (show t.input.length < fuel + stop by omega) hrest
            (boundary_le hsound.boundary)
          refine ⟨token :: tokens, ?_, ?_, ?_⟩
          · unfold collect
            rw [hnext]
            simp only [ok_bind, hcollect]
            rfl
          · rw [List.map_cons, List.map_cons, hmap, hkind, hcontent]
          · exact List.forall_mem_cons.mpr ⟨hterm, hall⟩

/-- Texts wrapped in quotes and joined by blanks are read back: as many
tokens as there are texts, each with its content, and all terminated. -/
theorem quoted_law (args : List (List Char × Quote × List Char))
    (hblanks : ∀ a ∈ args, ∀ c ∈ a.1, c = ' ' ∨ c = '\t')
    (hsep : ∀ a ∈ args.tail, a.1 ≠ []) (validate : Bool) :
    ∃ tokens : List Token,
      collect ((encode (joined args)).length + 1)
          (Tokenizer.new (encode (joined args)) validate) =
        .ok (tokens.map .ok) ∧
      tokens.map (fun token => (token.kind, token.content)) =
        args.map (fun (_, q, text) => (TokenKind.quoted q, encode text)) ∧
      ∀ token ∈ tokens, token.isTerminated = true :=
  collect_joined hblanks hsep (new_sound _ validate) (Nat.lt_succ_self _) rfl

/-- A quoted quote, and nothing in other quotes. -/
def sampleArgs : List (List Char × Quote × List Char) :=
  [([], .single, [Quote.single.char, 'x']), ([' '], .backtick, [])]

theorem quoted_law_sample :
    ∃ tokens : List Token,
      collect ((encode (joined sampleArgs)).length + 1)
          (Tokenizer.new (encode (joined sampleArgs)) true) =
        .ok (tokens.map .ok) ∧
      tokens.map (fun token => (token.kind, token.content)) =
        sampleArgs.map
          (fun (_, q, text) => (TokenKind.quoted q, encode text)) ∧
      ∀ token ∈ tokens, token.isTerminated = true :=
  quoted_law sampleArgs (by simp [sampleArgs]) (by simp [sampleArgs]) true

end Tokenizer

end Zmax.CommandLine
