/-
Parsing snippets: every text that is not empty is a snippet, and a printed
snippet is read as it was.

Both rest on how far a parser gets. On any text one of the alternatives
of an element reads something, in the end a `$` or a text
(`anything_progress`), so nothing stops the loop before the end. On a
printed element the alternatives in front of the one it was printed for
fail, and that one stops where the print ends (`anything_print`).
-/
import Zmax.Core.Snippets.Parser

namespace Zmax.Snippets.Parser

open Parsec

-- == depth

-- == acceptance

variable {α β : Type} {c : Char} {s rest : Tendril} {endAtBrace : Bool}
  {element : SnippetElement}

theorem consumes_dollar (q : Parser α) (f : α → β) :
    Consumes (map (right (token ['$']) q) f) :=
  (((consumes_token (List.cons_ne_nil _ _)).seq q).map _).map f

theorem consumes_brace (q : Parser α) (f : Tendril × α → β) :
    Consumes (map (seq (token ['$', '{']) q) f) :=
  ((consumes_token (List.cons_ne_nil _ _)).seq q).map f

theorem consumes_tabstop : Consumes tabstop :=
  ((consumes_dollar _ _).or (consumes_brace _ _)).map _

theorem consumes_placeholder (inside : Parser SnippetElement) :
    Consumes (placeholder inside) := consumes_brace _ _

theorem consumes_choice : Consumes choice := consumes_brace _ _

theorem consumes_variable (inside : Parser SnippetElement) :
    Consumes (variableElement inside) :=
  (consumes_dollar _ _).or ((consumes_brace _ _).or
    ((consumes_brace _ _).or (consumes_brace _ _)))

theorem textLoop_cons {escapeChars termChars : List Char} {cs : Tendril}
    (hc : termChars.contains c = false) :
    (textLoop escapeChars termChars (c :: cs)).1.length ≤ cs.length := by
  by_cases hback : c = '\\'
  · subst hback
    cases cs with
    | nil => exact Nat.le_refl _
    | cons d cs =>
        rw [textLoop]
        split
        · exact Nat.le_succ_of_le (textLoop_suffix _ _ cs).length_le
        · exact (textLoop_suffix _ _ (d :: cs)).length_le
  · rw [textLoop, if_neg (Bool.eq_false_iff.mp hc)]
    · exact (textLoop_suffix _ _ cs).length_le
    · exact fun h _ => hback h
    · exact fun _ _ h _ => hback h

/-- At the top level every text that is not empty starts with an
element. -/
theorem anything_progress (depth : Nat) (input : Tendril)
    (hne : input ≠ []) : Progress (anything (depth + 1) false) input := by
  refine Progress.or consumes_tabstop (Progress.or
    (consumes_placeholder _) (Progress.or consumes_choice
      (Progress.or (consumes_variable _) ?_)))
  have hdollar : Consumes (map (token ['$']) fun _ =>
      SnippetElement.text ['$']) := (consumes_token (List.cons_ne_nil _ _)).map _
  cases input with
  | nil => exact absurd rfl hne
  | cons c cs =>
      by_cases hc : c = '$'
      · subst hc
        exact ⟨_, _, nonEmpty_ok
          (or_ok _ (map_ok _ (token_append ['$'] cs))) (Nat.lt_succ_self _)⟩
      · refine Progress.or hdollar ⟨_, _, nonEmpty_ok (map_ok _ rfl) ?_⟩
        refine Nat.lt_succ_of_le (textLoop_cons ?_)
        simpa using hc

theorem parse_ok (hne : s ≠ []) : ∃ elements, parse s = .ok elements := by
  obtain ⟨next, value, h⟩ := anything_progress s.length s hne
  refine ⟨value :: (many (anything (s.length + 1) false) next).2, ?_⟩
  have hnil := many_eq_nil (anything_progress s.length) next
  unfold parse snippet oneOrMore
  dsimp only
  rw [h]
  dsimp only
  rw [hnil]
  rfl

-- == tokens

/-- Where a text of the context ends: in front of an element, in front of
the brace around it, or at the end. -/
def Ends (termChars : List Char) (rest : Tendril) : Prop :=
  ∀ c ∈ rest.head?, c ≠ '\\' ∧ termChars.contains c = true

theorem escape_cons (escapeChars : List Char) (c : Char) (text : Tendril) :
    escape escapeChars (c :: text)
      = (if escapeChars.contains c then ['\\', c] else [c])
        ++ escape escapeChars text := rfl

/-- An escaped text is read as the text, where what ends a text is
escaped. -/
theorem textLoop_escape {escapeChars termChars : List Char}
    (hback : escapeChars.contains '\\' = true)
    (hterm : ∀ c ∈ termChars, escapeChars.contains c = true)
    {rest : Tendril} (hrest : Ends termChars rest) (text : Tendril) :
    textLoop escapeChars termChars (escape escapeChars text ++ rest)
      = (rest, text) := by
  induction text with
  | nil =>
      cases rest with
      | nil => rfl
      | cons c rest =>
          obtain ⟨hc, hin⟩ := hrest c rfl
          show textLoop escapeChars termChars (c :: rest) = _
          rw [textLoop, if_pos hin]
          · exact fun h _ => hc h
          · exact fun _ _ h _ => hc h
  | cons c text ih =>
      rw [escape_cons]
      by_cases hin : escapeChars.contains c = true
      · rw [if_pos hin]
        show textLoop escapeChars termChars
          ('\\' :: c :: (escape escapeChars text ++ rest)) = _
        rw [textLoop, if_pos hin, ih]
        rfl
      · have hne : c ≠ '\\' := fun h => hin (h ▸ hback)
        rw [if_neg hin]
        show textLoop escapeChars termChars
          (c :: (escape escapeChars text ++ rest)) = _
        rw [textLoop, if_neg fun h => hin (hterm c (by simpa using h)), ih]
        · rfl
        · exact fun h _ => hne h
        · exact fun _ _ h _ => hne h

theorem text_escape {escapeChars termChars : List Char}
    (hback : escapeChars.contains '\\' = true)
    (hterm : ∀ c ∈ termChars, escapeChars.contains c = true)
    {rest : Tendril} (hrest : Ends termChars rest) (t : Tendril) :
    (text escapeChars termChars).parse (escape escapeChars t ++ rest)
      = .ok (rest, t) :=
  congrArg Except.ok (textLoop_escape hback hterm hrest t)

theorem digit_append {n : Nat} (hn : n ≤ Text.USIZE_MAX)
    (hrest : ∀ c ∈ rest.head?, c.isDigit = false) :
    digit.parse (Nat.toDigits 10 n ++ rest) = .ok (rest, n) :=
  filterMap_ok (takeWhile_append Nat.toDigits_ne_nil
    (fun _ hc => Nat.isDigit_of_mem_toDigits (by decide) (by decide) hc)
    hrest) (Text.parseUsize_digits hn)

theorem digit_fails {input : Tendril}
    (h : ∀ c ∈ input.head?, c.isDigit = false) : digit.Fails input :=
  filterMap_fails _ (takeWhile_fails h)

theorem isDigit_of_isVarStart (h : isVarStart c) : c.isDigit = false := by
  unfold isVarStart at h
  rw [Bool.or_eq_true, beq_iff_eq] at h
  rcases h with rfl | h
  · rfl
  · have hletter : 65 ≤ c.val.toNat := by
      rcases Bool.or_eq_true_iff.mp h with hupper | hlower
      · exact (of_decide_eq_true hupper).1
      · have hle := of_decide_eq_true (Bool.and_eq_true_iff.mp hlower).1
        exact Nat.le_trans (by decide : 65 ≤ 97) hle
    refine Bool.eq_false_iff.mpr fun hdigit => ?_
    have hdigit : c.val.toNat ≤ 57 :=
      of_decide_eq_true (Bool.and_eq_true_iff.mp hdigit).2
    omega

theorem var_append {name : Tendril} (hname : IsVar name)
    (hrest : ∀ c ∈ rest.head?, isVarChar c = false) :
    var.parse (name ++ rest) = .ok (rest, name) := by
  obtain ⟨c, cs, rfl, hc, hcs⟩ := hname
  obtain ⟨htake, hdrop⟩ := span_append hcs hrest
  unfold var
  dsimp only [List.cons_append]
  rw [if_pos hc, htake, hdrop]

theorem var_fails {cs : Tendril} (h : isVarStart c = false) :
    var.Fails (c :: cs) := by
  refine ⟨c :: cs, ?_⟩
  unfold var
  dsimp only
  rw [if_neg (Bool.eq_false_iff.mp h)]

-- == elements

theorem brace_ok {q : Parser α} (f : Tendril × α → β) {v : α}
    (h : q.parse s = .ok (rest, v)) :
    (map (seq (token ['$', '{']) q) f).parse ('$' :: '{' :: s)
      = .ok (rest, f (['$', '{'], v)) :=
  map_ok f (seq_ok (token_append ['$', '{'] s) h)

theorem brace_fails {q : Parser α} (f : Tendril × α → β) (h : q.Fails s) :
    (map (seq (token ['$', '{']) q) f).Fails ('$' :: '{' :: s) :=
  map_fails f (seq_fails_right (token_append ['$', '{'] s) h)

theorem dollar_fails {q : Parser α} (f : α → β) (h : q.Fails s) :
    (map (right (token ['$']) q) f).Fails ('$' :: s) :=
  map_fails f (map_fails _ (seq_fails_right (token_append ['$'] s) h))

section

variable {n : Nat} {c : Char} {name rest : Tendril}

/-- Behind a number each form goes on with a char of its own. -/
theorem tabstop_fails_number (hn : n ≤ Text.USIZE_MAX)
    (hc : c.isDigit = false) (hslash : c ≠ '/') (hbrace : c ≠ '}') :
    tabstop.Fails ('$' :: '{' :: (Nat.toDigits 10 n ++ c :: rest)) := by
  have hhead : ∀ d ∈ (c :: rest).head?, d = c := fun d hd =>
    (Option.some.inj hd).symm
  refine map_fails _ (or_fails (dollar_fails _ ?_) (brace_fails _ ?_))
  · exact digit_fails fun d hd => Option.some.inj hd ▸ rfl
  · refine seq_fails_right
      (digit_append hn fun d hd => hhead d hd ▸ hc) ?_
    have hregex : regex.Fails (c :: rest) :=
      map_fails _ (seq_fails_left _
        (token_fails fun d hd => hhead d hd ▸ hslash))
    exact seq_fails_right (optional_none hregex)
      (token_fails fun d hd => hhead d hd ▸ hbrace)

theorem placeholder_fails_number {inside : Parser SnippetElement}
    (hn : n ≤ Text.USIZE_MAX) (hc : c.isDigit = false) (hcolon : c ≠ ':') :
    (placeholder inside).Fails
      ('$' :: '{' :: (Nat.toDigits 10 n ++ c :: rest)) := by
  have hhead : ∀ d ∈ (c :: rest).head?, d = c := fun d hd =>
    (Option.some.inj hd).symm
  exact brace_fails _ (seq_fails_right
    (digit_append hn fun d hd => hhead d hd ▸ hc)
    (seq_fails_left _ (token_fails fun d hd => hhead d hd ▸ hcolon)))

/-- A number is asked for in front of a name. -/
theorem number_fails_name {α β : Type} (hname : IsVar name)
    (q : Parser α) (f : Tendril × Nat × α → β) :
    (map (seq (token ['$', '{']) (seq digit q)) f).Fails
      ('$' :: '{' :: (name ++ rest)) := by
  obtain ⟨c, cs, rfl, hc, -⟩ := hname
  exact brace_fails _ (seq_fails_left _ (digit_fails fun d hd =>
    Option.some.inj hd ▸ isDigit_of_isVarStart hc))

theorem tabstop_fails_name (hname : IsVar name) :
    tabstop.Fails ('$' :: '{' :: (name ++ rest)) :=
  map_fails _ (or_fails
    (dollar_fails _ (digit_fails fun _ hd => Option.some.inj hd ▸ rfl))
    (number_fails_name hname _ _))

end

/-- Only elements other than text start with a dollar. -/
theorem anything_text {input : Tendril} (h : ∀ c ∈ input.head?, c ≠ '$')
    (depth : Nat) (endAtBrace : Bool) :
    (anything (depth + 1) endAtBrace).parse input
      = (map (text TEXT_ESCAPE_CHARS
          (if endAtBrace then ['$', '}'] else ['$'])) .text).parse input := by
  have hdollar : ∀ {α β : Type} (q : Parser α) (f : α → β),
      (map (right (token ['$']) q) f).Fails input := fun q f =>
    map_fails f (map_fails _ (seq_fails_left q (token_fails h)))
  have hbrace : ∀ {α β : Type} (q : Parser α) (f : Tendril × α → β),
      (map (seq (token ['$', '{']) q) f).Fails input := fun q f =>
    map_fails f (seq_fails_left q (token_fails h))
  have htabstop : tabstop.Fails input :=
    map_fails _ (or_fails (hdollar _ _) (hbrace _ _))
  have hvariable : (variableElement (anything depth true)).Fails input :=
    or_fails (hdollar _ _)
      (or_fails (hbrace _ _) (or_fails (hbrace _ _) (hbrace _ _)))
  have hplaceholder : (placeholder (anything depth true)).Fails input :=
    hbrace _ _
  have hchoice : choice.Fails input := hbrace _ _
  rw [anything, or_right htabstop, or_right hplaceholder, or_right hchoice,
    or_right hvariable, or_right (map_fails _ (token_fails h))]

/-- Choices are read up to the bar behind them. -/
theorem choices_read (rest : Tendril) (choice : Tendril)
    (choices : List Tendril) :
    ∃ next, (text CHOICE_TEXT_ESCAPE_CHARS ['|', ',']).parse
        (printChoices (choice :: choices) ++ '|' :: rest)
          = .ok (next, choice)
      ∧ sepLoop (text CHOICE_TEXT_ESCAPE_CHARS ['|', ',']) ',' next
          = ('|' :: rest, choices) := by
  have hterm : ∀ c ∈ ['|', ','],
      CHOICE_TEXT_ESCAPE_CHARS.contains c = true :=
    List.all_eq_true.mp (by decide)
  induction choices generalizing choice with
  | nil =>
      refine ⟨'|' :: rest, text_escape (by decide) hterm ?_ choice, ?_⟩
      · intro c hc
        exact Option.some.inj hc ▸ by decide
      · exact sepLoop_of_ne (by decide)
  | cons choice' choices ih =>
      obtain ⟨next, hnext, hloop⟩ := ih choice'
      have hends : Ends ['|', ',']
          (',' :: (printChoices (choice' :: choices) ++ '|' :: rest)) :=
        fun c hc => Option.some.inj hc ▸ by decide
      have hread := text_escape (by decide) hterm hends choice
      refine ⟨',' :: (printChoices (choice' :: choices) ++ '|' :: rest),
        ?_, ?_⟩
      · rw [printChoices, List.append_assoc]
        · exact hread
        · exact List.cons_ne_nil _ _
      · rw [sepLoop_of_ok hnext, hloop]

theorem sep_choices {choices : List Tendril} (hne : choices ≠ [])
    (rest : Tendril) :
    (sep (text CHOICE_TEXT_ESCAPE_CHARS ['|', ',']) ',').parse
        (printChoices choices ++ '|' :: rest)
      = .ok ('|' :: rest, choices) := by
  cases choices with
  | nil => exact absurd rfl hne
  | cons choice choices =>
      obtain ⟨next, hnext, hloop⟩ := choices_read rest choice choices
      unfold sep
      dsimp only
      rw [hnext]
      dsimp only
      rw [hloop]

-- == printing

/-- What may follow elements: nothing, or the brace around them. -/
def Stops (endAtBrace : Bool) (rest : Tendril) : Prop :=
  ∀ c ∈ rest.head?, endAtBrace = true ∧ c = '}'

theorem stops_brace (rest : Tendril) : Stops true ('}' :: rest) :=
  fun _ hc => ⟨rfl, (Option.some.inj hc).symm⟩

/-- What may follow an element: a text is read up to the next element or
what stops it, any other element closes itself. -/
def Follows (endAtBrace : Bool) (element : SnippetElement)
    (rest : Tendril) : Prop :=
  element.isText → Ends (if endAtBrace then ['$', '}'] else ['$']) rest

theorem Stops.ends (h : Stops endAtBrace rest) :
    Ends (if endAtBrace then ['$', '}'] else ['$']) rest := by
  intro c hc
  obtain ⟨rfl, rfl⟩ := h c hc
  exact ⟨by decide, by decide⟩

/-- Nothing is read where elements stop. -/
theorem textEnds_escaped (endAtBrace : Bool) :
    ∀ c ∈ (if endAtBrace then ['$', '}'] else ['$']),
      TEXT_ESCAPE_CHARS.contains c = true := by
  cases endAtBrace <;> exact List.all_eq_true.mp (by decide)

theorem Stops.fails (h : Stops endAtBrace rest) (depth : Nat) :
    (nonEmpty (anything (depth + 1) endAtBrace)).Fails rest := by
  have hne : ∀ c ∈ rest.head?, c ≠ '$' := fun c hc =>
    (h c hc).2 ▸ by decide
  have htext : textLoop TEXT_ESCAPE_CHARS
      (if endAtBrace then ['$', '}'] else ['$']) rest = (rest, []) := by
    have hloop := @textLoop_escape TEXT_ESCAPE_CHARS
      (if endAtBrace then ['$', '}'] else ['$']) (by decide)
      (textEnds_escaped endAtBrace) rest h.ends []
    exact hloop
  refine nonEmpty_fails ((anything_text hne depth endAtBrace).trans
    (map_ok _ (congrArg Except.ok htext))) rfl

theorem print_dollar (h : element.isText = false) :
    ∃ cs, element.print = '$' :: cs := by
  cases element with
  | tabstop tabstop transform => exact ⟨_, rfl⟩
  | placeholder tabstop value => exact ⟨_, rfl⟩
  | choice tabstop choices => exact ⟨_, rfl⟩
  | «variable» name default transform =>
      cases default with
      | none => exact ⟨_, rfl⟩
      | some default => exact ⟨_, rfl⟩
  | text text => cases h

theorem print_text {t : Tendril} (hne : t ≠ []) (rest : Tendril) :
    ∀ c ∈ (escape TEXT_ESCAPE_CHARS t ++ rest).head?, c ≠ '$' := by
  cases t with
  | nil => exact absurd rfl hne
  | cons d t =>
      intro c hc
      rw [escape_cons] at hc
      by_cases hin : TEXT_ESCAPE_CHARS.contains d = true
      · rw [if_pos hin] at hc
        exact Option.some.inj hc ▸ by decide
      · rw [if_neg hin] at hc
        have hd : d = c := Option.some.inj hc
        rintro rfl
        exact hin (hd ▸ by decide)

theorem print_length_pos (h : element.Canonical) :
    0 < element.print.length := by
  cases htext : element.isText with
  | false =>
      obtain ⟨cs, hcs⟩ := print_dollar htext
      rw [hcs]
      exact Nat.succ_pos _
  | true =>
      cases element with
      | text t =>
          cases t with
          | nil => exact absurd rfl h
          | cons c t =>
              rw [SnippetElement.print, escape_cons, List.length_append]
              split
              · exact Nat.lt_of_lt_of_le (Nat.succ_pos _)
                  (Nat.le_add_right _ _)
              · exact Nat.lt_of_lt_of_le (Nat.succ_pos _)
                  (Nat.le_add_right _ _)
      | tabstop tabstop transform => cases htext
      | placeholder tabstop value => cases htext
      | choice tabstop choices => cases htext
      | «variable» name default transform => cases htext

/-- An element of a list is followed by what the next one starts with, or
by what stops the list. -/
theorem Canonical.follows {elements : List SnippetElement}
    (h : Canonical (element :: elements)) (hrest : Stops endAtBrace rest) :
    Follows endAtBrace element (print elements ++ rest) := by
  intro htext
  cases elements with
  | nil => exact hrest.ends
  | cons next elements =>
      obtain ⟨cs, hcs⟩ := print_dollar (h.2.2 htext next rfl)
      intro c hc
      have hhead : '$' = c := by
        rw [print, hcs] at hc
        exact Option.some.inj hc
      subst hhead
      exact ⟨by decide, by cases endAtBrace <;> decide⟩

mutual

/-- A printed element is read as it was, and no more. -/
theorem anything_print : ∀ (element : SnippetElement) {depth : Nat}
    {endAtBrace : Bool} {rest : Tendril}, element.Canonical →
      element.print.length ≤ depth + 1 → Follows endAtBrace element rest →
      (anything (depth + 1) endAtBrace).parse (element.print ++ rest)
        = .ok (rest, element)
  | .tabstop tabstop transform, depth, endAtBrace, rest, h, _, _ => by
      obtain ⟨hn, rfl⟩ := h
      have hprint : (SnippetElement.tabstop tabstop none).print ++ rest
          = '$' :: '{' :: (Nat.toDigits 10 tabstop ++ '}' :: rest) := by
        simp [SnippetElement.print]
      have hdigit : digit.parse (Nat.toDigits 10 tabstop ++ '}' :: rest)
          = .ok ('}' :: rest, tabstop) :=
        digit_append hn fun _ hd => Option.some.inj hd ▸ rfl
      have hdollar : digit.Fails
          ('{' :: (Nat.toDigits 10 tabstop ++ '}' :: rest)) :=
        digit_fails fun _ hd => Option.some.inj hd ▸ rfl
      have hregex : regex.Fails ('}' :: rest) :=
        map_fails _ (seq_fails_left _
          (token_fails fun _ hd => Option.some.inj hd ▸ by decide))
      rw [hprint]
      refine or_ok _ (map_ok _ ((or_right (dollar_fails _ hdollar)).trans
        (brace_ok _ (seq_ok hdigit (seq_ok (optional_none hregex)
          (token_append ['}'] rest))))))
  | .placeholder tabstop value, depth, endAtBrace, rest, h, hdepth, _ => by
      obtain ⟨hn, hvalue⟩ := h
      have hprint : (SnippetElement.placeholder tabstop value).print ++ rest
          = '$' :: '{' :: (Nat.toDigits 10 tabstop
            ++ ':' :: (print value ++ '}' :: rest)) := by
        simp [SnippetElement.print]
      have hlen : (print value).length + 1 ≤ depth := by
        simp only [SnippetElement.print, List.length_append,
          List.length_cons, List.length_nil] at hdepth
        omega
      obtain ⟨depth, rfl⟩ : ∃ d, depth = d + 1 :=
        ⟨depth - 1, by omega⟩
      have hinner := @elements_print value depth true ('}' :: rest) hvalue
        (by omega) (stops_brace rest)
      have htabstop : Parser.tabstop.Fails _ :=
        @tabstop_fails_number tabstop ':' (print value ++ '}' :: rest) hn
          rfl (by decide) (by decide)
      have hdigit : digit.parse (Nat.toDigits 10 tabstop
          ++ ':' :: (print value ++ '}' :: rest)) = .ok (_, tabstop) :=
        digit_append hn fun _ hd => Option.some.inj hd ▸ rfl
      rw [hprint, anything, or_right htabstop]
      exact or_ok _ (brace_ok _ (seq_ok hdigit (seq_ok
        (token_append [':'] _) (seq_ok (congrArg Except.ok hinner)
          (token_append ['}'] rest)))))
  | .choice tabstop choices, depth, endAtBrace, rest, h, _, _ => by
      obtain ⟨hn, hne⟩ := h
      have hprint : (SnippetElement.choice tabstop choices).print ++ rest
          = '$' :: '{' :: (Nat.toDigits 10 tabstop
            ++ '|' :: (printChoices choices ++ '|' :: ('}' :: rest))) := by
        simp [SnippetElement.print]
      have htabstop : Parser.tabstop.Fails _ :=
        @tabstop_fails_number tabstop '|'
          (printChoices choices ++ '|' :: ('}' :: rest)) hn rfl (by decide)
          (by decide)
      have hplaceholder : (placeholder (anything depth true)).Fails _ :=
        @placeholder_fails_number tabstop '|'
          (printChoices choices ++ '|' :: ('}' :: rest)) _ hn rfl (by decide)
      have hdigit : digit.parse (Nat.toDigits 10 tabstop
          ++ '|' :: (printChoices choices ++ '|' :: ('}' :: rest)))
            = .ok (_, tabstop) :=
        digit_append hn fun _ hd => Option.some.inj hd ▸ rfl
      rw [hprint, anything, or_right htabstop, or_right hplaceholder]
      exact or_ok _ (brace_ok _ (seq_ok hdigit (seq_ok
        (token_append ['|'] _) (seq_ok (sep_choices hne _)
          (token_append ['|', '}'] rest)))))
  | .variable name none transform, depth, endAtBrace, rest, h, _, _ => by
      obtain ⟨hname, rfl⟩ := h
      have hprint : (SnippetElement.variable name none none).print ++ rest
          = '$' :: '{' :: (name ++ '}' :: rest) := by
        simp [SnippetElement.print]
      have htabstop : Parser.tabstop.Fails _ :=
        @tabstop_fails_name name ('}' :: rest) hname
      have hplaceholder : (placeholder (anything depth true)).Fails _ :=
        @number_fails_name name ('}' :: rest) _ _ hname _ _
      have hchoice : choice.Fails _ :=
        @number_fails_name name ('}' :: rest) _ _ hname _ _
      have hvar : var.parse (name ++ '}' :: rest) = .ok ('}' :: rest, name) :=
        var_append hname fun _ hd => Option.some.inj hd ▸ rfl
      rw [hprint, anything, or_right htabstop, or_right hplaceholder,
        or_right hchoice]
      refine or_ok _ ((or_right (dollar_fails _ (var_fails rfl))).trans ?_)
      exact or_ok _ (brace_ok _ (seq_ok hvar (token_append ['}'] rest)))
  | .variable name (some default) transform, depth, endAtBrace, rest, h,
      hdepth, _ => by
      obtain ⟨hname, rfl, hdefault⟩ := h
      have hprint : (SnippetElement.variable name (some default) none).print
          ++ rest
          = '$' :: '{' :: (name ++ ':' :: (print default ++ '}' :: rest)) := by
        simp [SnippetElement.print]
      have hlen : (print default).length + 1 ≤ depth := by
        simp only [SnippetElement.print, List.length_append,
          List.length_cons, List.length_nil] at hdepth
        omega
      obtain ⟨depth, rfl⟩ : ∃ d, depth = d + 1 :=
        ⟨depth - 1, by omega⟩
      have hinner := @elements_print default depth true ('}' :: rest)
        hdefault (by omega) (stops_brace rest)
      have htabstop : Parser.tabstop.Fails _ :=
        @tabstop_fails_name name (':' :: (print default ++ '}' :: rest)) hname
      have hplaceholder : (placeholder (anything (depth + 1) true)).Fails _ :=
        @number_fails_name name (':' :: (print default ++ '}' :: rest)) _ _
          hname _ _
      have hchoice : choice.Fails _ :=
        @number_fails_name name (':' :: (print default ++ '}' :: rest)) _ _
          hname _ _
      have hvar : var.parse (name ++ ':' :: (print default ++ '}' :: rest))
          = .ok (_, name) :=
        var_append hname fun _ hd => Option.some.inj hd ▸ rfl
      have hbare : (seq var (token ['}'])).Fails
          (name ++ ':' :: (print default ++ '}' :: rest)) :=
        seq_fails_right hvar
          (token_fails fun _ hd => Option.some.inj hd ▸ by decide)
      rw [hprint, anything, or_right htabstop, or_right hplaceholder,
        or_right hchoice]
      refine or_ok _ ((or_right (dollar_fails _ (var_fails rfl))).trans ?_)
      refine (or_right (brace_fails _ hbare)).trans ?_
      exact or_ok _ (brace_ok _ (seq_ok hvar (seq_ok (token_append [':'] _)
        (seq_ok (congrArg Except.ok hinner) (token_append ['}'] rest)))))
  | .text t, depth, endAtBrace, rest, h, _, hrest => by
      have htext := @text_escape TEXT_ESCAPE_CHARS
        (if endAtBrace then ['$', '}'] else ['$']) (by decide)
        (textEnds_escaped endAtBrace) rest (hrest rfl) t
      exact (anything_text (print_text h rest) depth endAtBrace).trans
        (map_ok _ htext)

/-- Printed elements are read as they were, and no more. -/
theorem elements_print : ∀ (elements : List SnippetElement) {depth : Nat}
    {endAtBrace : Bool} {rest : Tendril}, Canonical elements →
      (print elements).length ≤ depth + 1 → Stops endAtBrace rest →
      many (anything (depth + 1) endAtBrace) (print elements ++ rest)
        = (rest, elements)
  | [], depth, endAtBrace, rest, _, _, hrest =>
      many_of_fails (hrest.fails depth)
  | element :: elements, depth, endAtBrace, rest, h, hdepth, hrest => by
      have hlen : element.print.length + (print elements).length
          ≤ depth + 1 := @List.length_append _ element.print _ ▸ hdepth
      have hread := @anything_print element depth endAtBrace _ h.1
        (by omega) (Canonical.follows h hrest)
      have hpos := print_length_pos h.1
      have hne := nonEmpty_ok hread (by
        simp only [List.length_append]
        omega)
      rw [print, List.append_assoc, many_of_ok hne,
        elements_print elements h.2.1 (by omega) hrest]

end

/-- A printed snippet is parsed to what it was printed from. -/
theorem parse_print {elements : List SnippetElement} (hne : elements ≠ [])
    (h : Canonical elements) : parse (print elements) = .ok elements := by
  cases elements with
  | nil => exact absurd rfl hne
  | cons element elements =>
      have hstops : Stops false [] := nofun
      have hlen : (print (element :: elements)).length
          = element.print.length + (print elements).length :=
        List.length_append
      have hread := @anything_print element
        (print (element :: elements)).length false _ h.1 (by omega)
        (Canonical.follows h hstops)
      have hrest := @elements_print elements
        (print (element :: elements)).length false [] h.2.1 (by omega) hstops
      have hpos := print_length_pos h.1
      have hprogress := nonEmpty_ok hread (by
        simp only [List.length_append]
        omega)
      rw [List.append_nil] at hrest hprogress
      rw [← print] at hprogress
      unfold parse snippet oneOrMore
      dsimp only
      rw [hprogress]
      dsimp only
      rw [hrest]
      rfl

/-- Every text but the empty one is a snippet, all of it, and a printed
snippet is the one it was printed from. -/
theorem parse_law :
    (∀ s : Tendril, s ≠ [] → ∃ elements, parse s = .ok elements)
    ∧ ∀ elements : List SnippetElement, elements ≠ [] →
      Canonical elements → parse (print elements) = .ok elements :=
  ⟨fun _ hne => parse_ok hne, fun _ hne h => parse_print hne h⟩

/-- `$` alone, and `\$${1:${2|a\|,|}${v:${3}}}`. -/
theorem parse_law_nested :
    (∃ elements, parse ['$'] = .ok elements)
    ∧ parse (print [.text ['$'], .placeholder 1 [.choice 2 [['a', '|'], []],
          .variable ['v'] (some [.tabstop 3 none]) none]])
        = .ok [.text ['$'], .placeholder 1 [.choice 2 [['a', '|'], []],
          .variable ['v'] (some [.tabstop 3 none]) none]] := by
  refine ⟨parse_law.1 _ (List.cons_ne_nil _ _),
    parse_law.2 _ (List.cons_ne_nil _ _) ?_⟩
  have hvar : IsVar ['v'] := ⟨'v', [], rfl, by decide, nofun⟩
  simp [Canonical, SnippetElement.Canonical, SnippetElement.isText, hvar,
    Text.USIZE_MAX]

end Zmax.Snippets.Parser
