/-
zmax-core/src/command_line.rs: the tokens of a command line, and the
arguments a command's signature makes of them.

Strings are their UTF-8 bytes here, since the tokenizer indexes bytes:
slicing one off a char boundary is a panic. `find` looks for ASCII delimiters
only, so it finds their bytes. Every loop over the input has the input's
length as its bound.
-/
import Zmax.Basic
import Zmax.Lib.Utf8

namespace Zmax.CommandLine

open Utf8

/-- A `str` -/
abbrev Str := List UInt8

/-- `b'…'` -/
def byte (c : Char) : UInt8 := UInt8.ofNat c.toNat

/-- `&s[start..stop]` -/
def sliceStr (s : Str) (start stop : Nat) : Result Str :=
  if start ≤ stop ∧ isCharBoundary s start ∧ isCharBoundary s stop then
    .ok ((s.drop start).take (stop - start))
  else .error .outOfBounds

-- == signatures

structure Flag where
  name : Str
  aliasChar : Option Char
  /-- Set for a flag that takes an argument. -/
  completions : Option (List Str)
  deriving DecidableEq, Repr

structure Signature where
  positionals : Nat × Option Nat
  rawAfter : Option Nat
  flags : List Flag
  deriving DecidableEq, Repr

-- == tokens

inductive ExpansionKind where
  | variable
  | unicode
  | shell
  | register
  deriving DecidableEq, Repr

/-- `ExpansionKind::from_kind` -/
def ExpansionKind.fromKind (name : Str) : Option ExpansionKind :=
  if name = [] then some .variable
  else if name = encode "u".toList then some .unicode
  else if name = encode "sh".toList then some .shell
  else if name = encode "reg".toList then some .register
  else none

inductive Quote where
  | single
  | backtick
  deriving DecidableEq, Repr

/-- `Quote::char` -/
def Quote.char : Quote → Char
  | .single => Char.ofNat 39
  | .backtick => Char.ofNat 96

/-- `Quote::escape` -/
def Quote.escape : Quote → List Char
  | .single => [Char.ofNat 39, Char.ofNat 39]
  | .backtick => [Char.ofNat 96, Char.ofNat 96]

inductive TokenKind where
  | unquoted
  | quoted (quote : Quote)
  | expand
  | expansion (kind : ExpansionKind)
  | expansionKind
  deriving DecidableEq, Repr

structure Token where
  kind : TokenKind
  /-- The byte index into the input where the content starts. -/
  contentStart : Nat
  content : Str
  isTerminated : Bool
  deriving DecidableEq, Repr

inductive ParseArgsError where
  | wrongPositionalCount (min : Nat) (max : Option Nat) (actual : Nat)
  | unterminatedToken (token : Token)
  | duplicatedFlag (flag : Str)
  | unknownFlag (text : Str)
  | flagMissingArgument (flag : Str)
  | missingExpansionDelimiter (expansion : Str)
  | unknownExpansion (kind : Str)
  deriving DecidableEq, Repr

-- == the tokenizer

structure Tokenizer where
  input : Str
  validate : Bool
  pos : Nat
  deriving DecidableEq, Repr

def Tokenizer.new (input : Str) (validate : Bool) : Tokenizer :=
  ⟨input, validate, 0⟩

namespace Tokenizer

def byte (t : Tokenizer) : Option UInt8 := t.input[t.pos]?

def peekByte (t : Tokenizer) : Option UInt8 := t.input[t.pos + 1]?

def isBlank (b : UInt8) : Bool :=
  b = CommandLine.byte ' ' ∨ b = CommandLine.byte '\t'

/-- `skip_blanks` -/
def skipBlanks (t : Tokenizer) : Tokenizer :=
  { t with pos := t.pos + ((t.input.drop t.pos).takeWhile isBlank).length }

/-- `rest`: what is left of the input as one token. -/
def rest (t : Tokenizer) : Result (Option Token × Tokenizer) :=
  let t := t.skipBlanks
  if t.pos = t.input.length then .ok (none, t)
  else do
    let content ← sliceStr t.input t.pos t.input.length
    return (some ⟨.expand, t.pos, content, false⟩,
      { t with pos := t.input.length })

/-- `prev_byte` of a position. -/
def prevByte (input : Str) (pos : Nat) : Result (Option UInt8) :=
  if pos = 0 then .ok none else return some (← index input (pos - 1))

/-- Behind the loop of `parse_unquoted`: a trailing backslash is no content. -/
def unquotedEnd (input escaped : Str) (start pos : Nat) :
    Result (Str × Nat) := do
  let stop :=
    if (← prevByte input pos) = some (CommandLine.byte '\\') then pos - 1
    else pos
  if escaped = [] then
    assert (pos = input.length)
  return (escaped ++ (← sliceStr input start stop), pos)

/-- The loop of `parse_unquoted`, with the bytes from the position on. -/
def unquotedLoop (input : Str) : Str → Str → Nat → Nat → Result (Str × Nat)
  | [], escaped, start, pos => unquotedEnd input escaped start pos
  | b :: bytes, escaped, start, pos => do
      if isBlank b then
        if (← prevByte input pos) = some (CommandLine.byte '\\') then
          -- everything up to the backslash, and then the blank
          let piece ← sliceStr input start (pos - 1)
          unquotedLoop input bytes (escaped ++ piece ++ [b]) (pos + 1) (pos + 1)
        else if escaped = [] then
          return (← sliceStr input start pos, pos)
        else unquotedEnd input escaped start pos
      else unquotedLoop input bytes escaped start (pos + 1)

/-- `parse_unquoted` -/
def parseUnquoted (t : Tokenizer) : Result (Str × Tokenizer) := do
  let (content, pos) ←
    unquotedLoop t.input (t.input.drop t.pos) [] t.pos t.pos
  return (content, { t with pos := pos })

/-- The loop of `parse_quoted`: what is in the quotes, whether they are
closed, and the position behind. -/
def quotedLoop (input : Str) (quote : UInt8) :
    Nat → Str → Nat → Result (Str × Bool × Nat)
  | 0, _, _ => .error .diverges
  | fuel + 1, escaped, pos => do
      let tail ← sliceStr input pos input.length
      match tail.idxOf? quote with
      | some offset =>
          let idx := pos + offset
          if input[idx + 1]? = some quote then
            -- two quotes in a row are an escape
            let piece ← sliceStr input pos (idx + 1)
            quotedLoop input quote fuel (escaped ++ piece) (idx + 2)
          else return (escaped ++ (← sliceStr input pos idx), true, idx + 1)
      | none => return (escaped ++ tail, false, input.length)

/-- `parse_quoted` -/
def parseQuoted (t : Tokenizer) (quote : UInt8) :
    Result (Str × Bool × Tokenizer) := do
  assert (t.byte = some quote)
  let (content, isTerminated, pos) ←
    quotedLoop t.input quote t.input.length [] (t.pos + 1)
  return (content, isTerminated, { t with pos := pos })

/-- An `i32` after an overflow, which wraps in a release build. -/
def wrapI32 (n : Int) : Int := n.bmod 4294967296

/-- The loop of `parse_quoted_balanced`: the position it stops at, and
whether the delimiters are balanced there. -/
def balancedLoop (input : Str) (opening closing : UInt8) :
    Nat → Int → Nat → Result (Bool × Nat)
  | 0, _, _ => .error .diverges
  | fuel + 1, level, pos => do
      let tail ← sliceStr input pos input.length
      match tail.findIdx? (fun b => b = opening ∨ b = closing) with
      | some offset =>
          let idx := pos + offset
          let b ← index input idx
          if b = opening then
            balancedLoop input opening closing fuel (wrapI32 (level + 1))
              (idx + 1)
          else if b = closing then
            let level := wrapI32 (level - 1)
            if level = 0 then return (true, idx + 1)
            else balancedLoop input opening closing fuel level (idx + 1)
          else .error .unreachable
      | none => return (level = 0, pos)

/-- `parse_quoted_balanced` -/
def parseQuotedBalanced (t : Tokenizer) (opening closing : UInt8) :
    Result (Str × Bool × Tokenizer) := do
  assert (t.byte = some opening)
  let start := t.pos + 1
  let (isTerminated, pos) ←
    balancedLoop t.input opening closing t.input.length 1 start
  let pos := if isTerminated then pos else t.input.length
  let stop ← if isTerminated then checkedSub pos 1 else .ok pos
  return (← sliceStr t.input start stop, isTerminated, { t with pos := pos })

/-- The delimiters of an expansion. -/
def delimiters : Option UInt8 → Option (UInt8 × UInt8)
  | some b =>
      if b = CommandLine.byte '(' then some (b, CommandLine.byte ')')
      else if b = CommandLine.byte '[' then some (b, CommandLine.byte ']')
      else if b = CommandLine.byte '{' then some (b, CommandLine.byte '}')
      else if b = CommandLine.byte '<' then some (b, CommandLine.byte '>')
      else if b = 39 ∨ b = 34 ∨ b = CommandLine.byte '|' then some (b, b)
      else none
  | none => none

def isAsciiLowercase (b : UInt8) : Bool :=
  (CommandLine.byte 'a').toNat ≤ b.toNat ∧ b.toNat ≤ (CommandLine.byte 'z').toNat

/-- `parse_percent_token` -/
def parsePercentToken (t : Tokenizer) :
    Result (Except ParseArgsError Token × Tokenizer) := do
  assert (t.byte = some (CommandLine.byte '%'))
  let kindStart := t.pos + 1
  let tail ← sliceStr t.input kindStart t.input.length
  let t := { t with pos := kindStart + (tail.takeWhile isAsciiLowercase).length }
  let kind ← sliceStr t.input kindStart t.pos
  match delimiters t.byte with
  | none =>
      return (if t.validate then .error (.missingExpansionDelimiter kind)
        else .ok ⟨.expansionKind, kindStart, kind, false⟩, t)
  | some (opening, closing) =>
      let contentStart := t.pos + 1
      match ExpansionKind.fromKind kind, t.validate with
      | none, true => return (.error (.unknownExpansion kind), t)
      | found, validate =>
          let tokenKind := match found with
            | some found => TokenKind.expansion found
            | none => .expand
          let (content, isTerminated, t) ←
            if opening = closing then t.parseQuoted opening
            else t.parseQuotedBalanced opening closing
          let token := ⟨tokenKind, contentStart, content, isTerminated⟩
          return (if validate ∧ ¬ isTerminated then
            .error (.unterminatedToken token) else .ok token, t)

/-- The kind of what is in quotes. -/
def quoteKind (b : UInt8) : Option TokenKind :=
  if b = 34 then some .expand
  else if b = 39 then some (.quoted .single)
  else if b = 96 then some (.quoted .backtick)
  else none

/-- `next` -/
def next (t : Tokenizer) :
    Result (Option (Except ParseArgsError Token) × Tokenizer) := do
  let t := t.skipBlanks
  match t.byte with
  | none => return (none, t)
  | some b =>
      match quoteKind b with
      | some kind =>
          let contentStart := t.pos + 1
          let (content, isTerminated, t) ← t.parseQuoted b
          let token := ⟨kind, contentStart, content, isTerminated⟩
          return (some (if t.validate ∧ ¬ isTerminated then
            .error (.unterminatedToken token) else .ok token), t)
      | none =>
          if b = CommandLine.byte '%' then
            let (token, t) ← t.parsePercentToken
            return (some token, t)
          else
            let contentStart := t.pos
            -- a backslash escapes quotes and expansions
            let t :=
              if b = CommandLine.byte '\\' ∧
                  t.peekByte.any (fun p => (quoteKind p).isSome ∨
                    p = CommandLine.byte '%')
              then { t with pos := t.pos + 1 } else t
            let (content, t) ← t.parseUnquoted
            return (some (.ok ⟨.unquoted, contentStart, content, false⟩), t)

/-- The tokenizer iterated to its end. -/
def collect : Nat → Tokenizer → Result (List (Except ParseArgsError Token))
  | 0, _ => .error .diverges
  | fuel + 1, t => do
      match ← t.next with
      | (none, _) => return []
      | (some item, t) => return item :: (← collect fuel t)

attribute [grind =] unquotedLoop quotedLoop balancedLoop collect

end Tokenizer

-- == the arguments

inductive CompletionState where
  | positional
  | flag (flag : Option Flag)
  | flagArgument (flag : Flag)
  deriving DecidableEq, Repr

structure Args where
  signature : Signature
  validate : Bool
  /-- What starts with `-` is a positional all the same. -/
  onlyPositionals : Bool
  state : CompletionState
  positionals : List Str
  /-- The flags given, with their arguments. -/
  flags : List (Str × Str)
  deriving DecidableEq, Repr

def Args.new (signature : Signature) (validate : Bool) : Args :=
  ⟨signature, validate, false, .positional, [], []⟩

/-- `HashMap::insert` -/
def insertFlag (flags : List (Str × Str)) (name arg : Str) :
    List (Str × Str) :=
  flags.filter (·.1 ≠ name) ++ [(name, arg)]

namespace Args

/-- `read_token` -/
def readToken (args : Args) (parser : Tokenizer) :
    Result (Args × Except ParseArgsError (Option Token) × Tokenizer) :=
  if args.signature.rawAfter.any (fun max => max ≤ args.positionals.length)
  then do
    let (token, parser) ← parser.rest
    return ({ args with onlyPositionals := true }, .ok token, parser)
  else do
    let (item, parser) ← parser.next
    match item with
    | none => return (args, .ok none, parser)
    | some (.ok token) => return (args, .ok (some token), parser)
    | some (.error e) => return (args, .error e, parser)

/-- `flag_awaiting_argument` -/
def flagAwaitingArgument (args : Args) : Option Flag :=
  match args.state with
  | .flag flag => flag.filter (·.completions.isSome)
  | _ => none

def dash : UInt8 := byte '-'

/-- The flag of the signature that an argument starting with `-` names. -/
def findFlag (signature : Signature) (arg : Str) : Option Flag :=
  if [dash, dash].isPrefixOf arg then
    signature.flags.find? fun flag => flag.name = arg.drop 2
  else
    signature.flags.find? fun flag =>
      flag.aliasChar.any fun ch => arg.drop 1 = String.utf8EncodeChar ch

/-- `push` -/
def push (args : Args) (arg : Str) : Except ParseArgsError Args :=
  if ¬ args.onlyPositionals ∧ arg = [dash, dash] then
    .ok { args with onlyPositionals := true, state := .flag none }
  else
    match args.flagAwaitingArgument with
    | some flag =>
        .ok { args with
          flags := insertFlag args.flags flag.name arg
          state := .flagArgument flag }
    | none =>
        if ¬ args.onlyPositionals ∧ [dash].isPrefixOf arg then
          match findFlag args.signature arg with
          | none =>
              if args.validate then .error (.unknownFlag arg)
              else .ok { args with
                positionals := args.positionals ++ [arg]
                state := .flag none }
          | some flag =>
              if args.validate ∧ args.flags.any (·.1 = flag.name) then
                .error (.duplicatedFlag flag.name)
              else .ok { args with
                flags := insertFlag args.flags flag.name []
                state := .flag (some flag) }
        else
          .ok { args with
            positionals := args.positionals ++ [arg]
            state := .positional }

/-- `check_positional_count` -/
def checkPositionalCount (signature : Signature) (actual : Nat) :
    Except ParseArgsError Unit :=
  let (min, max) := signature.positionals
  if min ≤ actual ∧ max.all (actual ≤ ·) then .ok ()
  else .error (.wrongPositionalCount min max actual)

/-- `finish` -/
def finish (args : Args) : Except ParseArgsError Unit :=
  if ¬ args.validate then .ok ()
  else
    match args.flagAwaitingArgument with
    | some flag => .error (.flagMissingArgument flag.name)
    | none => checkPositionalCount args.signature args.positionals.length

end Args

/-- The errors of `parse`: its own, and those of `try_map_fn`. -/
inductive ParseError (ε : Type) where
  | args (e : ParseArgsError)
  | map (e : ε)
  deriving DecidableEq, Repr

variable {σ ε : Type}

/-- The loop of `parse`. `try_map_fn` has a state of its own. -/
def parseLoop (tryMap : σ → Token → Except ε (σ × Str)) :
    Nat → Tokenizer → σ → Args → Result (Except (ParseError ε) Args)
  | 0, _, _, _ => .error .diverges
  | fuel + 1, tokenizer, st, args => do
      let (args, token, tokenizer) ← args.readToken tokenizer
      match token with
      | .error e => return .error (.args e)
      | .ok none => return .ok args
      | .ok (some token) =>
          match tryMap st token with
          | .error e => return .error (.map e)
          | .ok (st, arg) =>
              match args.push arg with
              | .error e => return .error (.args e)
              | .ok args => parseLoop tryMap fuel tokenizer st args

/-- `Args::parse` -/
def Args.parse (line : Str) (signature : Signature) (validate : Bool)
    (tryMap : σ → Token → Except ε (σ × Str)) (st : σ) :
    Result (Except (ParseError ε) Args) := do
  match ← parseLoop tryMap (line.length + 1) (Tokenizer.new line validate) st
      (Args.new signature validate) with
  | .error e => return .error e
  | .ok args =>
      match args.finish with
      | .error e => return .error (.args e)
      | .ok () => return .ok args

attribute [grind =] parseLoop

end Zmax.CommandLine
