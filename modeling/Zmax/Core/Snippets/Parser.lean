/-
zmax-core/src/snippets/parser.rs: the syntax and the grammar of snippets, and
the way from a tree of elements back to a text.

Placeholders and the defaults of variables hold elements again, so the
parser of an element calls itself. `anything` is given how deep it may
nest; each level opens with a brace, so a text of `n` chars never nests
deeper than `n` (`anything_depth`).

# Printing

All elements are printed with braces. `Canonical` is what a tree has to be
for its text to say all of it: texts next to each other would be read as
one, and an empty text not at all; a choice is between one or more texts;
transforms are left out.
-/
import Zmax.Core.Text
import Zmax.Parsec

namespace Zmax.Snippets

inductive CaseChange where
  | upcase
  | downcase
  | capitalize
  | pascalCase
  | camelCase
  deriving DecidableEq, Repr

inductive FormatItem where
  | text (text : Tendril)
  | capture (i : Nat)
  | caseChange (i : Nat) (change : CaseChange)
  | conditional (i : Nat) (ifText elseText : Tendril)
  deriving DecidableEq, Repr

namespace Parser

structure Transform where
  regex : Tendril
  replacement : List FormatItem
  options : Tendril
  deriving DecidableEq, Repr

inductive SnippetElement where
  | tabstop (tabstop : Nat) (transform : Option Transform)
  | placeholder (tabstop : Nat) (value : List SnippetElement)
  | choice (tabstop : Nat) (choices : List Tendril)
  | variable (name : Tendril) (default : Option (List SnippetElement))
      (transform : Option Transform)
  | text (text : Tendril)
  deriving Repr

open Parsec

-- == tokens

def isVarStart (c : Char) : Bool := c == '_' || c.isAlpha

def isVarChar (c : Char) : Bool := c == '_' || c.isAlphanum

/-- `var = [_a-zA-Z][_a-zA-Z0-9]*` -/
def var : Parser Tendril where
  parse := fun input =>
    match input with
    | [] => .error input
    | c :: cs =>
        if isVarStart c then
          .ok (cs.dropWhile isVarChar, c :: cs.takeWhile isVarChar)
        else .error input
  tail := fun {input} _ _ h => by
    split at h
    · cases h
    · next c cs =>
        split at h
        · injection h with h
          injection h with h _
          exact h ▸ (List.dropWhile_suffix _).trans (List.suffix_cons c cs)
        · cases h

def TEXT_ESCAPE_CHARS : List Char := ['\\', '}', '$']
def CHOICE_TEXT_ESCAPE_CHARS : List Char := ['\\', '|', ',']

/-- `res.push(c)`, in front of what is read after it. -/
def pushChar (c : Char) (read : Tendril × Tendril) : Tendril × Tendril :=
  (read.1, c :: read.2)

/-- The loop of `text`: what is left, and the text without escapes. A
backslash that escapes nothing stands for itself. -/
def textLoop (escapeChars termChars : List Char) :
    Tendril → Tendril × Tendril
  | [] => ([], [])
  | ['\\'] => ([], ['\\'])
  | '\\' :: c :: cs =>
      if escapeChars.contains c then
        pushChar c (textLoop escapeChars termChars cs)
      else pushChar '\\' (textLoop escapeChars termChars (c :: cs))
  | c :: cs =>
      if termChars.contains c then (c :: cs, [])
      else pushChar c (textLoop escapeChars termChars cs)

attribute [grind =] textLoop

theorem textLoop_suffix (escapeChars termChars : List Char)
    (input : Tendril) :
    (textLoop escapeChars termChars input).1 <:+ input := by
  induction input using textLoop.induct escapeChars termChars with
  | case1 => exact List.suffix_rfl
  | case2 => exact List.nil_suffix
  | case3 c cs hc ih =>
      rw [textLoop, if_pos hc]
      exact (ih.trans (List.suffix_cons c cs)).trans (List.suffix_cons _ _)
  | case4 c cs hc ih =>
      rw [textLoop, if_neg hc]
      exact ih.trans (List.suffix_cons _ _)
  | case5 c cs h₁ h₂ hc =>
      have hstop : textLoop escapeChars termChars (c :: cs)
          = (c :: cs, []) := by
        rw [textLoop, if_pos hc]
        · exact h₁
        · exact h₂
      simp only [hstop, List.suffix_rfl]
  | case6 c cs h₁ h₂ hc ih =>
      rw [textLoop, if_neg hc]
      · exact ih.trans (List.suffix_cons _ _)
      · exact h₁
      · exact h₂

def text (escapeChars termChars : List Char) : Parser Tendril where
  parse := fun input => .ok (textLoop escapeChars termChars input)
  tail := fun {input next} _ h => by
    injection h with h
    have hnext : (textLoop escapeChars termChars input).1 = next :=
      congrArg Prod.fst h
    exact hnext ▸ textLoop_suffix escapeChars termChars input

def digit : Parser Nat :=
  filterMap (takeWhile Char.isDigit) Text.parseUsize

-- == transforms

def caseChange : Parser CaseChange :=
  or (map (token "upcase".toList) fun _ => .upcase)
    (or (map (token "downcase".toList) fun _ => .downcase)
    (or (map (token "capitalize".toList) fun _ => .capitalize)
    (or (map (token "pascalcase".toList) fun _ => .pascalCase)
    (map (token "camelcase".toList) fun _ => .camelCase))))

def format : Parser FormatItem :=
  -- '$' int
  or (map (right (token ['$']) digit) .capture)
  -- '${' int '}'
  (or (map (seq (token ['$', '{']) (seq digit (token ['}'])))
    fun (_, i, _) => .capture i)
  -- '${' int ':' '/upcase' | '/downcase' | '/capitalize' '}'
  (or (map (seq (token ['$', '{']) (seq digit (seq (token [':', '/'])
      (seq caseChange (token ['}'])))))
    fun (_, i, _, change, _) => .caseChange i change)
  -- '${' int ':+' if '}'
  (or (map (seq (token ['$', '{']) (seq digit (seq (token [':', '+'])
      (seq (text TEXT_ESCAPE_CHARS ['}']) (token ['}'])))))
    fun (_, i, _, ifText, _) => .conditional i ifText [])
  -- '${' int ':?' if ':' else '}'
  (or (map (seq (token ['$', '{']) (seq digit (seq (token [':', '?'])
      (seq (text TEXT_ESCAPE_CHARS [':']) (seq (token [':'])
        (seq (text TEXT_ESCAPE_CHARS ['}']) (token ['}'])))))))
    fun (_, i, _, ifText, _, elseText, _) => .conditional i ifText elseText)
  -- '${' int ':-' else '}' | '${' int ':' else '}'
  (map (seq (token ['$', '{']) (seq digit (seq (token [':'])
      (seq (optional (token ['-']))
        (seq (text TEXT_ESCAPE_CHARS ['}']) (token ['}']))))))
    fun (_, i, _, _, elseText, _) => .conditional i [] elseText)))))

def regex : Parser Transform :=
  map (seq (token ['/']) (seq (text ['/'] ['/']) (seq (token ['/'])
    (seq
      (zeroOrMore (or format
        -- text doesn't parse $, if format fails we just accept the $ as
        -- text
        (or (map (token ['$']) fun _ => .text ['$'])
          (map (text ['\\', '/'] ['/', '$']) .text))))
      (seq (token ['/']) (text [] ['}']))))))
    fun (_, value, _, replacement, _, options) =>
      ⟨value, replacement, options⟩

-- == elements

def tabstop : Parser SnippetElement :=
  map
    (or
      (map (right (token ['$']) digit) fun i => (i, none))
      (map (seq (token ['$', '{']) (seq digit (seq (optional regex)
          (token ['}']))))
        fun (_, i, transform, _) => (i, transform)))
    fun (tabstop, transform) => .tabstop tabstop transform

/-- `placeholder`, given the parser of an element inside. -/
def placeholder (anything : Parser SnippetElement) : Parser SnippetElement :=
  map (seq (token ['$', '{']) (seq digit (seq (token [':'])
      (seq (zeroOrMore anything) (token ['}'])))))
    fun (_, tabstop, _, value, _) => .placeholder tabstop value

def choice : Parser SnippetElement :=
  map (seq (token ['$', '{']) (seq digit (seq (token ['|'])
      (seq (sep (text CHOICE_TEXT_ESCAPE_CHARS ['|', ',']) ',')
        (token ['|', '}'])))))
    fun (_, tabstop, _, choices, _) => .choice tabstop choices

/-- `variable`, given the parser of an element inside. -/
def variableElement (anything : Parser SnippetElement) : Parser SnippetElement :=
  -- $var
  or (map (right (token ['$']) var) fun name => .variable name none none)
  -- ${var}
  (or (map (seq (token ['$', '{']) (seq var (token ['}'])))
    fun (_, name, _) => .variable name none none)
  -- ${var:default}
  (or (map (seq (token ['$', '{']) (seq var (seq (token [':'])
      (seq (zeroOrMore anything) (token ['}'])))))
    fun (_, name, _, default, _) => .variable name (some default) none)
  -- ${var/value/format/options}
  (map (seq (token ['$', '{']) (seq var (seq regex (token ['}']))))
    fun (_, name, transform, _) => .variable name none (some transform))))

/-- One element, that nests at most `depth` deep. -/
def anything : (depth : Nat) → (endAtBrace : Bool) → Parser SnippetElement
  | 0, _ => ⟨.error, nofun⟩
  | depth + 1, endAtBrace =>
      or tabstop
      (or (placeholder (anything depth true))
      (or choice
      (or (variableElement (anything depth true))
      (or (map (token ['$']) fun _ => .text ['$'])
        (map (text TEXT_ESCAPE_CHARS
          (if endAtBrace then ['$', '}'] else ['$'])) .text)))))

def snippet (depth : Nat) : Parser (List SnippetElement) :=
  oneOrMore (anything depth false)

def parse (s : Tendril) : Except Tendril (List SnippetElement) :=
  match (snippet (s.length + 1)).parse s with
  | .ok (remainder, snippet) =>
      if remainder.isEmpty then .ok snippet else .error remainder
  | .error rest => .error rest

/-- A text with a backslash in front of some chars. -/
def escape (escapeChars : List Char) (text : Tendril) : Tendril :=
  text.flatMap fun c => if escapeChars.contains c then ['\\', c] else [c]

/-- Texts with commas in between. -/
def printChoices : List Tendril → Tendril
  | [] => []
  | [text] => escape CHOICE_TEXT_ESCAPE_CHARS text
  | text :: texts =>
      escape CHOICE_TEXT_ESCAPE_CHARS text ++ ',' :: printChoices texts

mutual

def SnippetElement.print : SnippetElement → Tendril
  | .tabstop tabstop _ => ['$', '{'] ++ Nat.toDigits 10 tabstop ++ ['}']
  | .placeholder tabstop value =>
      ['$', '{'] ++ Nat.toDigits 10 tabstop ++ [':'] ++ print value ++ ['}']
  | .choice tabstop choices =>
      ['$', '{'] ++ Nat.toDigits 10 tabstop ++ ['|'] ++ printChoices choices
        ++ ['|', '}']
  | .variable name none _ => ['$', '{'] ++ name ++ ['}']
  | .variable name (some default) _ =>
      ['$', '{'] ++ name ++ [':'] ++ print default ++ ['}']
  | .text text => escape TEXT_ESCAPE_CHARS text

def print : List SnippetElement → Tendril
  | [] => []
  | element :: elements => element.print ++ print elements

end

def SnippetElement.isText : SnippetElement → Bool
  | .text _ => true
  | _ => false

/-- A name the grammar has for a variable. -/
def IsVar (name : Tendril) : Prop :=
  ∃ c cs, name = c :: cs ∧ isVarStart c ∧ ∀ d ∈ cs, isVarChar d

mutual

/-- A tabstop is a `usize`. -/
def SnippetElement.Canonical : SnippetElement → Prop
  | .tabstop tabstop transform =>
      tabstop ≤ Text.USIZE_MAX ∧ transform = none
  | .placeholder tabstop value =>
      tabstop ≤ Text.USIZE_MAX ∧ Canonical value
  | .choice tabstop choices => tabstop ≤ Text.USIZE_MAX ∧ choices ≠ []
  | .variable name none transform => IsVar name ∧ transform = none
  | .variable name (some default) transform =>
      IsVar name ∧ transform = none ∧ Canonical default
  | .text text => text ≠ []

def Canonical : List SnippetElement → Prop
  | [] => True
  | element :: elements =>
      element.Canonical ∧ Canonical elements
        ∧ (element.isText → ∀ next ∈ elements.head?, next.isText = false)

end

attribute [grind =] anything printChoices SnippetElement.print print
  SnippetElement.Canonical Canonical

end Parser

end Zmax.Snippets
