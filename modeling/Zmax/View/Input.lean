/-
zmax-view/src/input.rs and keyboard.rs: key events as text.

A `u8` of a function key is a number below 256. Which chars form a grapheme
cluster is up to the Unicode tables.

Macros read back as they were recorded.

A key that can be read is a letter without the shift that would change it, a
function key that there is, or a key with a name (`Typed`). It prints its
modifiers and its name with dashes between them and none in them, so the text
splits into the same tokens (`fromStr_text`). A single char is printed as it is
and is none of the chars that stand for something else in a macro; all else is
printed in angle brackets and has none inside, so the keys of a macro do not run
into each other (`macroTokens_format`).
-/
import Zmax.Core.Text
import Zmax.Core.Unicode

namespace Zmax.Input

open Text

-- == keys

structure KeyModifiers where
  shift : Bool
  control : Bool
  alt : Bool
  super : Bool
  deriving DecidableEq, Repr

namespace KeyModifiers

def NONE : KeyModifiers := ⟨false, false, false, false⟩
def SHIFT : KeyModifiers := { NONE with shift := true }
def CONTROL : KeyModifiers := { NONE with control := true }
def ALT : KeyModifiers := { NONE with alt := true }
def SUPER : KeyModifiers := { NONE with super := true }

/-- `insert` -/
def insert (self flag : KeyModifiers) : KeyModifiers :=
  ⟨self.shift || flag.shift, self.control || flag.control,
    self.alt || flag.alt, self.super || flag.super⟩

/-- `contains` -/
def contains (self flag : KeyModifiers) : Bool := self.insert flag = self

end KeyModifiers

inductive MediaKeyCode where
  | play
  | pause
  | playPause
  | reverse
  | stop
  | fastForward
  | rewind
  | trackNext
  | trackPrevious
  | record
  | lowerVolume
  | raiseVolume
  | muteVolume
  deriving DecidableEq, Repr

inductive ModifierKeyCode where
  | leftShift
  | leftControl
  | leftAlt
  | leftSuper
  | leftHyper
  | leftMeta
  | rightShift
  | rightControl
  | rightAlt
  | rightSuper
  | rightHyper
  | rightMeta
  | isoLevel3Shift
  | isoLevel5Shift
  deriving DecidableEq, Repr

inductive KeyCode where
  | backspace
  | enter
  | left
  | right
  | up
  | down
  | home
  | «end»
  | pageUp
  | pageDown
  | tab
  | delete
  | insert
  | f (number : Nat)
  | char (c : Char)
  | null
  | esc
  | capsLock
  | scrollLock
  | numLock
  | printScreen
  | pause
  | menu
  | keypadBegin
  | media (code : MediaKeyCode)
  | modifier (code : ModifierKeyCode)
  deriving DecidableEq, Repr

structure KeyEvent where
  code : KeyCode
  modifiers : KeyModifiers
  deriving DecidableEq, Repr

-- == names

namespace Keys

def BACKSPACE := "backspace".toList
def ENTER := "ret".toList
def LEFT := "left".toList
def RIGHT := "right".toList
def UP := "up".toList
def DOWN := "down".toList
def HOME := "home".toList
def END := "end".toList
def PAGEUP := "pageup".toList
def PAGEDOWN := "pagedown".toList
def TAB := "tab".toList
def DELETE := "del".toList
def INSERT := "ins".toList
def NULL := "null".toList
def ESC := "esc".toList
def SPACE := "space".toList
def MINUS := "minus".toList
def LESS_THAN := "lt".toList
def GREATER_THAN := "gt".toList
def CAPS_LOCK := "capslock".toList
def SCROLL_LOCK := "scrolllock".toList
def NUM_LOCK := "numlock".toList
def PRINT_SCREEN := "printscreen".toList
def PAUSE := "pause".toList
def MENU := "menu".toList
def KEYPAD_BEGIN := "keypadbegin".toList
def PLAY := "play".toList
def PAUSE_MEDIA := "pausemedia".toList
def PLAY_PAUSE := "playpause".toList
def REVERSE := "reverse".toList
def STOP := "stop".toList
def FAST_FORWARD := "fastforward".toList
def REWIND := "rewind".toList
def TRACK_NEXT := "tracknext".toList
def TRACK_PREVIOUS := "trackprevious".toList
def RECORD := "record".toList
def LOWER_VOLUME := "lowervolume".toList
def RAISE_VOLUME := "raisevolume".toList
def MUTE_VOLUME := "mutevolume".toList
def LEFT_SHIFT := "leftshift".toList
def LEFT_CONTROL := "leftcontrol".toList
def LEFT_ALT := "leftalt".toList
def LEFT_SUPER := "leftsuper".toList
def LEFT_HYPER := "lefthyper".toList
def LEFT_META := "leftmeta".toList
def RIGHT_SHIFT := "rightshift".toList
def RIGHT_CONTROL := "rightcontrol".toList
def RIGHT_ALT := "rightalt".toList
def RIGHT_SUPER := "rightsuper".toList
def RIGHT_HYPER := "righthyper".toList
def RIGHT_META := "rightmeta".toList
def ISO_LEVEL_3_SHIFT := "isolevel3shift".toList
def ISO_LEVEL_5_SHIFT := "isolevel5shift".toList

end Keys

open Keys

/-- What `from_str` takes each name for. -/
def keyNames : List (List Char × KeyCode) :=
  [(BACKSPACE, .backspace), (ENTER, .enter), (LEFT, .left), (RIGHT, .right),
    (UP, .up), (DOWN, .down), (HOME, .home), (END, .end), (PAGEUP, .pageUp),
    (PAGEDOWN, .pageDown), (TAB, .tab), (DELETE, .delete), (INSERT, .insert),
    (NULL, .null), (ESC, .esc), (SPACE, .char ' '), (MINUS, .char '-'),
    (LESS_THAN, .char '<'), (GREATER_THAN, .char '>'),
    (CAPS_LOCK, .capsLock), (SCROLL_LOCK, .scrollLock),
    (NUM_LOCK, .numLock), (PRINT_SCREEN, .printScreen), (PAUSE, .pause),
    (MENU, .menu), (KEYPAD_BEGIN, .keypadBegin), (PLAY, .media .play),
    (PAUSE_MEDIA, .media .pause), (PLAY_PAUSE, .media .playPause),
    (STOP, .media .stop), (REVERSE, .media .reverse),
    (FAST_FORWARD, .media .fastForward), (REWIND, .media .rewind),
    (TRACK_NEXT, .media .trackNext), (TRACK_PREVIOUS, .media .trackPrevious),
    (RECORD, .media .record), (LOWER_VOLUME, .media .lowerVolume),
    (RAISE_VOLUME, .media .raiseVolume), (MUTE_VOLUME, .media .muteVolume),
    (LEFT_SHIFT, .modifier .leftShift), (LEFT_CONTROL, .modifier .leftControl),
    (LEFT_ALT, .modifier .leftAlt), (LEFT_SUPER, .modifier .leftSuper),
    (LEFT_HYPER, .modifier .leftHyper), (LEFT_META, .modifier .leftMeta),
    (RIGHT_SHIFT, .modifier .rightShift),
    (RIGHT_CONTROL, .modifier .rightControl), (RIGHT_ALT, .modifier .rightAlt),
    (RIGHT_SUPER, .modifier .rightSuper), (RIGHT_HYPER, .modifier .rightHyper),
    (RIGHT_META, .modifier .rightMeta),
    (ISO_LEVEL_3_SHIFT, .modifier .isoLevel3Shift),
    (ISO_LEVEL_5_SHIFT, .modifier .isoLevel5Shift)]

-- == printing

def MediaKeyCode.text : MediaKeyCode → List Char
  | .play => PLAY
  | .pause => PAUSE_MEDIA
  | .playPause => PLAY_PAUSE
  | .stop => STOP
  | .reverse => REVERSE
  | .fastForward => FAST_FORWARD
  | .rewind => REWIND
  | .trackNext => TRACK_NEXT
  | .trackPrevious => TRACK_PREVIOUS
  | .record => RECORD
  | .lowerVolume => LOWER_VOLUME
  | .raiseVolume => RAISE_VOLUME
  | .muteVolume => MUTE_VOLUME

def ModifierKeyCode.text : ModifierKeyCode → List Char
  | .leftShift => LEFT_SHIFT
  | .leftControl => LEFT_CONTROL
  | .leftAlt => LEFT_ALT
  | .leftSuper => LEFT_SUPER
  | .leftHyper => LEFT_HYPER
  | .leftMeta => LEFT_META
  | .rightShift => RIGHT_SHIFT
  | .rightControl => RIGHT_CONTROL
  | .rightAlt => RIGHT_ALT
  | .rightSuper => RIGHT_SUPER
  | .rightHyper => RIGHT_HYPER
  | .rightMeta => RIGHT_META
  | .isoLevel3Shift => ISO_LEVEL_3_SHIFT
  | .isoLevel5Shift => ISO_LEVEL_5_SHIFT

def charText (c : Char) : List Char :=
  if c = ' ' then SPACE
  else if c = '-' then MINUS
  else if c = '<' then LESS_THAN
  else if c = '>' then GREATER_THAN
  else [c]

def KeyCode.text : KeyCode → List Char
  | .backspace => BACKSPACE
  | .enter => ENTER
  | .left => LEFT
  | .right => RIGHT
  | .up => UP
  | .down => DOWN
  | .home => HOME
  | .end => END
  | .pageUp => PAGEUP
  | .pageDown => PAGEDOWN
  | .tab => TAB
  | .delete => DELETE
  | .insert => INSERT
  | .null => NULL
  | .esc => ESC
  | .f number => 'F' :: Nat.toDigits 10 number
  | .char c => charText c
  | .capsLock => CAPS_LOCK
  | .scrollLock => SCROLL_LOCK
  | .numLock => NUM_LOCK
  | .printScreen => PRINT_SCREEN
  | .pause => PAUSE
  | .menu => MENU
  | .keypadBegin => KEYPAD_BEGIN
  | .media code => code.text
  | .modifier code => code.text

namespace KeyEvent

/-- `Display` -/
def text (self : KeyEvent) : List Char :=
  (if self.modifiers.contains .SUPER then "Meta-".toList else []) ++
    ((if self.modifiers.contains .SHIFT then "S-".toList else []) ++
    ((if self.modifiers.contains .ALT then "A-".toList else []) ++
    ((if self.modifiers.contains .CONTROL then "C-".toList else []) ++
    self.code.text)))

/-- `graphemes(true).count()` -/
def graphemeCount (U : Unicode) (s : List Char) : Nat :=
  (List.range s.length).countP fun i =>
    i = 0 || U.isGraphemeBoundary s i

/-- `key_sequence_format` -/
def keySequenceFormat (U : Unicode) (self : KeyEvent) : List Char :=
  let s := self.text
  if graphemeCount U s > 1 then '<' :: s ++ ['>'] else s

end KeyEvent

-- == parsing

inductive KeyError where
  /-- `Missing key code` -/
  | missingKeyCode
  /-- A number that is no `u8`. -/
  | parseInt
  /-- `Invalid function key '{}'` -/
  | invalidFunctionKey (number : Nat)
  /-- `Key '-' cannot be used with modifiers, use '{}' instead` -/
  | minusWithModifiers (suggestion : List Char)
  /-- `Invalid key code '{}'` -/
  | invalidKeyCode (token : List Char)
  /-- `Invalid key modifier '{}-'` -/
  | invalidModifier (token : List Char)
  /-- `Repeated key modifier '{}-'` -/
  | repeatedModifier (token : List Char)
  /-- `'>' expected` -/
  | closerExpected
  deriving DecidableEq, Repr

/-- `parse::<u8>` -/
def parseU8 (s : List Char) : Option Nat := (parseUsize s).filter (· ≤ 255)

/-- The modifier that a token stands for. -/
def flagOf (token : List Char) : Except KeyError KeyModifiers :=
  if token = "S".toList then .ok .SHIFT
  else if token = "A".toList then .ok .ALT
  else if token = "C".toList then .ok .CONTROL
  else if token = "Meta".toList ∨ token = "Cmd".toList ∨
      token = "Win".toList then .ok .SUPER
  else .error (.invalidModifier token)

def addModifier (modifiers : KeyModifiers) (token : List Char) :
    Except KeyError KeyModifiers := do
  let flag ← flagOf token
  if modifiers.contains flag then throw (.repeatedModifier token)
  else return modifiers.insert flag

/-- A lowercase letter with shift is the uppercase one without. -/
def normalize (code : KeyCode) (modifiers : KeyModifiers) : KeyEvent :=
  match code with
  | .char ch =>
      if ch.isLower ∧ modifiers.contains .SHIFT then
        ⟨.char ch.toUpper, { modifiers with shift := false }⟩
      else ⟨code, modifiers⟩
  | _ => ⟨code, modifiers⟩

/-- The key event of a key code behind modifiers. -/
def modified (code : KeyCode) (tokens : List (List Char)) :
    Except KeyError KeyEvent := do
  let modifiers ← tokens.foldlM addModifier .NONE
  return normalize code modifiers

/-- The key event of a text with this last token behind the others. -/
def fromToken (s : List Char) (tokens : List (List Char))
    (token : List Char) : Except KeyError KeyEvent :=
  match keyNames.lookup token with
  | some code => modified code tokens
  | none =>
      match token with
      | [single] => modified (.char single) tokens
      | _ =>
          if 1 < token.length ∧ token.head? = some 'F' then
            match parseU8 token.tail with
            | none => .error .parseInt
            | some number =>
                if 0 < number ∧ number < 25 then
                  modified (.f number) tokens
                else .error (.invalidFunctionKey number)
          -- `-` is used as a code, and not missing behind a modifier
          else if s.getLast? = some '-' ∧ tokens.getLast? = some [] then
            if s = ['-'] then .ok ⟨.char '-', .NONE⟩
            else .error (.minusWithModifiers
              (s.rdropWhile (· = '-') ++ '-' :: MINUS))
          else .error (.invalidKeyCode token)

/-- `KeyEvent::from_str` -/
def fromStr (s : List Char) : Except KeyError KeyEvent :=
  match (s.splitOn '-').getLast? with
  | none => .error .missingKeyCode
  | some token => fromToken s (s.splitOn '-').dropLast token

/-- The keys of a macro, each still as text. -/
def macroTokens : List Char → Except KeyError (List (List Char))
  | [] => .ok []
  | c :: s =>
      if c ≠ '<' then do
        let keys ← macroTokens s
        return (if c = '-' then MINUS else [c]) :: keys
      else
        match _h : breakAt ['>'] s with
        | none => .error .closerExpected
        | some (key, rest) => do
            let keys ← macroTokens rest
            return key :: keys
termination_by s => s.length
decreasing_by
  · exact Nat.lt_succ_self _
  · rw [breakAt_eq_some _h]
    simp only [List.length_cons, List.length_append]
    omega

/-- `parse_macro` -/
def parseMacro (keysStr : List Char) : Except KeyError (List KeyEvent) := do
  let keys ← macroTokens keysStr
  keys.mapM fromStr

attribute [grind =] macroTokens

end Zmax.Input

namespace Zmax.Input

open Text

-- == what is typed

/-- A key that a text can stand for. -/
def Typed (e : KeyEvent) : Prop :=
  match e.code with
  | .char c => ¬(c.isLower ∧ e.modifiers.shift)
  | .f number => 0 < number ∧ number < 25
  | _ => True

/-- Grapheme clusters end behind a letter or digit that a letter, a digit or a
dash follows. -/
def Breaks (U : Unicode) : Prop :=
  ∀ c d s, c.isAlphanum → d.isAlphanum ∨ d = '-' →
    U.isGraphemeBoundary (c :: d :: s) 1

theorem contains_shift (m : KeyModifiers) :
    m.contains .SHIFT = m.shift := by
  cases m with
  | mk shift control alt super =>
      cases shift <;> cases control <;> cases alt <;> cases super <;> rfl

variable {code : KeyCode} {e : KeyEvent} {token : List Char}

theorem typed_normalize {m : KeyModifiers}
    (h : ∀ number, code = .f number → 0 < number ∧ number < 25) :
    Typed (normalize code m) := by
  unfold normalize
  split
  · rename_i ch
    split
    · unfold Typed
      exact fun hboth => Bool.false_ne_true hboth.2
    · rename_i hkept
      rw [contains_shift] at hkept
      exact hkept
  · rename_i hchar
    unfold Typed
    dsimp only
    cases code with
    | f number => exact h number rfl
    | char c => exact absurd rfl (hchar c)
    | _ => trivial

theorem typed_modified {tokens : List (List Char)}
    (h : ∀ number, code = .f number → 0 < number ∧ number < 25)
    (hok : modified code tokens = .ok e) : Typed e := by
  unfold modified at hok
  cases hfold : tokens.foldlM addModifier .NONE with
  | error err =>
      rw [hfold] at hok
      cases hok
  | ok m =>
      rw [hfold] at hok
      cases hok
      exact typed_normalize h

-- == names

theorem mem_of_lookup (h : keyNames.lookup token = some code) :
    (token, code) ∈ keyNames := by
  obtain ⟨before, behind, heq, -⟩ := List.lookup_eq_some_iff.mp h
  rw [heq]
  exact List.mem_append_right _ List.mem_cons_self

/-- What the names have in common: two letters or digits in front, only small
letters, and no function key. -/
def plainName (p : List Char × KeyCode) : Bool :=
  (match p.1 with
    | c :: d :: _ => c.isAlphanum && d.isAlphanum
    | _ => false) &&
  p.1.all (fun c => c.isLower || c.isDigit) &&
  (match p.2 with
    | .f _ => false
    | _ => true)

theorem plainName_of_mem {p : List Char × KeyCode} (h : p ∈ keyNames) :
    plainName p :=
  List.all_eq_true.mp (show keyNames.all plainName = true by decide) p h

theorem lookup_single (c : Char) : keyNames.lookup [c] = none := by
  cases h : keyNames.lookup [c] with
  | none => rfl
  | some code =>
      have hplain := plainName_of_mem (mem_of_lookup h)
      simp [plainName] at hplain

theorem lookup_function (s : List Char) :
    keyNames.lookup ('F' :: s) = none := by
  cases h : keyNames.lookup ('F' :: s) with
  | none => rfl
  | some code =>
      have hplain := plainName_of_mem (mem_of_lookup h)
      unfold plainName at hplain
      simp only [Bool.and_eq_true, List.all_cons] at hplain
      exact absurd hplain.1.2.1 (by decide)

theorem lookup_charText (c : Char) :
    keyNames.lookup (charText c) = some (.char c) ∨
      charText c = [c] ∧ c ≠ '-' ∧ c ≠ '<' ∧ c ≠ '>' := by
  unfold charText
  by_cases hspace : c = ' '
  · rw [if_pos hspace, hspace]
    exact .inl rfl
  by_cases hminus : c = '-'
  · rw [if_neg hspace, if_pos hminus, hminus]
    exact .inl rfl
  by_cases hless : c = '<'
  · rw [if_neg hspace, if_neg hminus, if_pos hless, hless]
    exact .inl rfl
  by_cases hgreater : c = '>'
  · rw [if_neg hspace, if_neg hminus, if_neg hless, if_pos hgreater, hgreater]
    exact .inl rfl
  · rw [if_neg hspace, if_neg hminus, if_neg hless, if_neg hgreater]
    exact .inr ⟨rfl, hminus, hless, hgreater⟩

/-- Every key but a plain char and a function key has a name, and its name is
read as it. -/
theorem lookup_text (code : KeyCode) :
    keyNames.lookup code.text = some code ∨
      (∃ c, code = .char c ∧ code.text = [c] ∧ c ≠ '-' ∧ c ≠ '<' ∧
        c ≠ '>') ∨
      ∃ number, code = .f number := by
  cases code with
  | f number => exact .inr (.inr ⟨number, rfl⟩)
  | char c => exact (lookup_charText c).imp_right fun h => .inl ⟨c, rfl, h⟩
  | media code => cases code <;> exact .inl rfl
  | modifier code => cases code <;> exact .inl rfl
  | _ => exact .inl rfl

-- == texts

/-- Tokens with dashes behind them, and a last one. -/
def joined (tokens : List (List Char)) (token : List Char) : List Char :=
  tokens.flatMap (· ++ ['-']) ++ token

theorem splitOn_joined {tokens : List (List Char)}
    (h : ∀ t ∈ tokens, '-' ∉ t) (h' : '-' ∉ token) :
    (joined tokens token).splitOn '-' = tokens ++ [token] := by
  unfold joined
  induction tokens with
  | nil => exact List.splitOn_eq_singleton h'
  | cons t tokens ih =>
      obtain ⟨ht, htokens⟩ := List.forall_mem_cons.mp h
      rw [List.flatMap_cons, List.append_assoc, List.append_assoc,
        List.singleton_append,
        List.splitOn_append_cons_self_of_not_mem ht, ih htokens]
      rfl

/-- The tokens of modifiers, in the order in which they are printed. -/
def modifierTokens (m : KeyModifiers) : List (List Char) :=
  (if m.super then ["Meta".toList] else []) ++
    ((if m.shift then ["S".toList] else []) ++
    ((if m.alt then ["A".toList] else []) ++
    (if m.control then ["C".toList] else [])))

theorem text_eq (e : KeyEvent) :
    e.text = joined (modifierTokens e.modifiers) e.code.text := by
  obtain ⟨code, ⟨shift, control, alt, super⟩⟩ := e
  cases shift <;> cases control <;> cases alt <;> cases super <;> rfl

theorem modifierTokens_plain (m : KeyModifiers) :
    ∀ t ∈ modifierTokens m, '-' ∉ t ∧ '>' ∉ t := by
  obtain ⟨shift, control, alt, super⟩ := m
  cases shift <;> cases control <;> cases alt <;> cases super <;> decide

theorem foldlM_modifierTokens (m : KeyModifiers) :
    (modifierTokens m).foldlM addModifier .NONE = .ok m := by
  obtain ⟨shift, control, alt, super⟩ := m
  cases shift <;> cases control <;> cases alt <;> cases super <;> rfl

theorem modified_eq (h : Typed e) :
    modified e.code (modifierTokens e.modifiers) = .ok e := by
  obtain ⟨code, m⟩ := e
  unfold modified
  rw [foldlM_modifierTokens]
  refine congrArg Except.ok ?_
  cases code with
  | char c =>
      unfold normalize
      dsimp only
      rw [contains_shift]
      exact if_neg h
  | _ => rfl

theorem name_plain (h : keyNames.lookup token = some code) :
    '-' ∉ token ∧ '>' ∉ token := by
  have hplain := plainName_of_mem (mem_of_lookup h)
  unfold plainName at hplain
  simp only [Bool.and_eq_true] at hplain
  have hall := List.all_eq_true.mp hplain.1.2
  exact ⟨fun hmem => absurd (hall _ hmem) (by decide),
    fun hmem => absurd (hall _ hmem) (by decide)⟩

/-- The numbers of function keys, checked one by one. -/
theorem function_text {number : Nat} (h : 0 < number ∧ number < 25) :
    parseU8 (Nat.toDigits 10 number) = some number ∧
      '-' ∉ Nat.toDigits 10 number ∧ '>' ∉ Nat.toDigits 10 number ∧
      ∃ d s, Nat.toDigits 10 number = d :: s ∧ d.isAlphanum := by
  have hall : (List.range 25).all (fun n => n = 0 ||
      parseU8 (Nat.toDigits 10 n) = some n &&
        (Nat.toDigits 10 n).all Char.isDigit &&
          !(Nat.toDigits 10 n).isEmpty) = true := by decide
  have hnumber := List.all_eq_true.mp hall number (List.mem_range.mpr h.2)
  simp only [Bool.or_eq_true, Bool.and_eq_true, decide_eq_true_eq] at hnumber
  obtain ⟨⟨hparse, hdigits⟩, hne⟩ := hnumber.resolve_left (Nat.ne_of_gt h.1)
  have hdigit := List.all_eq_true.mp hdigits
  refine ⟨hparse, fun hmem => absurd (hdigit _ hmem) (by decide),
    fun hmem => absurd (hdigit _ hmem) (by decide), ?_⟩
  cases htext : Nat.toDigits 10 number with
  | nil =>
      rw [htext] at hne
      cases hne
  | cons d s =>
      refine ⟨d, s, rfl, ?_⟩
      have hd := hdigit d (htext ▸ List.mem_cons_self)
      unfold Char.isAlphanum
      rw [hd, Bool.or_true]

theorem text_plain (h : Typed e) : '-' ∉ e.code.text ∧ '>' ∉ e.code.text := by
  rcases lookup_text e.code with hname | ⟨c, -, htext, hc⟩ | ⟨number, hcode⟩
  · exact name_plain hname
  · rw [htext]
    exact ⟨fun hmem => hc.1 (List.mem_singleton.mp hmem).symm,
      fun hmem => hc.2.2 (List.mem_singleton.mp hmem).symm⟩
  · unfold Typed at h
    rw [hcode] at h
    obtain ⟨-, hdash, hcloser, -⟩ := function_text h
    rw [hcode]
    exact ⟨fun hmem => hdash ((List.mem_cons.mp hmem).resolve_left (by decide)),
      fun hmem => hcloser ((List.mem_cons.mp hmem).resolve_left (by decide))⟩

/-- A printed key is read as the key. -/
theorem fromStr_text (h : Typed e) : fromStr e.text = .ok e := by
  have hsplit : e.text.splitOn '-' =
      modifierTokens e.modifiers ++ [e.code.text] := by
    rw [text_eq]
    exact splitOn_joined (fun t ht => (modifierTokens_plain _ t ht).1)
      (text_plain h).1
  unfold fromStr
  rw [hsplit, List.getLast?_concat, List.dropLast_concat]
  dsimp only
  unfold fromToken
  rcases lookup_text e.code with hname | ⟨c, hcode, htext, -⟩ | ⟨number, hcode⟩
  · rw [hname]
    exact modified_eq h
  · rw [htext, lookup_single]
    dsimp only
    rw [← hcode]
    exact modified_eq h
  · have hnumber := h
    unfold Typed at hnumber
    rw [hcode] at hnumber
    obtain ⟨hparse, -, -, d, s, hdigits, -⟩ := function_text hnumber
    have htext : e.code.text = 'F' :: d :: s := by
      rw [hcode, ← hdigits]
      rfl
    rw [htext, lookup_function]
    dsimp only
    rw [if_pos ⟨by simp, rfl⟩, List.tail_cons, ← hdigits, hparse]
    dsimp only
    rw [if_pos hnumber, ← hcode]
    exact modified_eq h

/-- What can be read is a key that is typed. -/
theorem typed_fromStr {s : List Char} (h : fromStr s = .ok e) : Typed e := by
  unfold fromStr at h
  split at h
  · cases h
  rename_i token _
  unfold fromToken at h
  split at h
  · rename_i code hname
    have hplain := plainName_of_mem (mem_of_lookup hname)
    refine typed_modified (fun number heq => ?_) h
    rw [heq] at hplain
    unfold plainName at hplain
    simp only [Bool.and_false] at hplain
    exact absurd hplain Bool.false_ne_true
  split at h
  · exact typed_modified (fun number heq => KeyCode.noConfusion heq) h
  split at h
  · split at h
    · cases h
    · rename_i number _
      split at h
      · rename_i hnumber
        refine typed_modified (fun number' heq => ?_) h
        cases heq
        exact hnumber
      · cases h
  · split at h
    · split at h
      · cases h
        exact fun hboth => Bool.false_ne_true hboth.2
      · cases h
    · cases h

-- == formats

variable {U : Unicode}

theorem one_lt_graphemeCount {c d : Char} {s : List Char}
    (h : U.isGraphemeBoundary (c :: d :: s) 1) :
    1 < KeyEvent.graphemeCount U (c :: d :: s) := by
  unfold KeyEvent.graphemeCount
  rw [List.range_eq_range', List.length_cons, List.length_cons,
    List.range'_succ, List.range'_succ, List.countP_cons_of_pos (by simp),
    List.countP_cons_of_pos (by simp [h])]
  omega

/-- A name, and a text with modifiers, starts with a letter that another one or
a dash follows. -/
theorem text_start (h : Typed e) :
    (∃ c, e.text = [c] ∧ c ≠ '-' ∧ c ≠ '<' ∧ c ≠ '>') ∨
      ∃ c d s, e.text = c :: d :: s ∧ c.isAlphanum ∧
        (d.isAlphanum ∨ d = '-') := by
  have hcode : (∃ c, e.code.text = [c] ∧ c ≠ '-' ∧ c ≠ '<' ∧ c ≠ '>') ∨
      ∃ c d s, e.code.text = c :: d :: s ∧ c.isAlphanum ∧ d.isAlphanum := by
    rcases lookup_text e.code with hname | ⟨c, -, hc⟩ | ⟨number, hcode⟩
    · have hplain := plainName_of_mem (mem_of_lookup hname)
      unfold plainName at hplain
      cases htext : e.code.text with
      | nil =>
          rw [htext] at hplain
          cases hplain
      | cons c s =>
          cases s with
          | nil =>
              rw [htext] at hplain
              cases hplain
          | cons d s =>
              rw [htext] at hplain
              simp only [Bool.and_eq_true] at hplain
              exact .inr ⟨c, d, s, rfl, hplain.1.1⟩
    · exact .inl ⟨c, hc⟩
    · unfold Typed at h
      rw [hcode] at h
      obtain ⟨-, -, -, d, s, hdigits, hd⟩ := function_text h
      refine .inr ⟨'F', d, s, ?_, by decide, hd⟩
      rw [hcode, ← hdigits]
      rfl
  rw [text_eq]
  obtain ⟨code, ⟨shift, control, alt, super⟩⟩ := e
  cases super with
  | true => exact .inr ⟨'M', 'e', _, rfl, by decide, .inl (by decide)⟩
  | false =>
  cases shift with
  | true => exact .inr ⟨'S', '-', _, rfl, by decide, .inr rfl⟩
  | false =>
  cases alt with
  | true => exact .inr ⟨'A', '-', _, rfl, by decide, .inr rfl⟩
  | false =>
  cases control with
  | true => exact .inr ⟨'C', '-', _, rfl, by decide, .inr rfl⟩
  | false =>
  exact hcode.imp_right fun ⟨c, d, s, hs, hc, hd⟩ => ⟨c, d, s, hs, hc, .inl hd⟩

theorem macroTokens_char {c : Char} (s : List Char) (h : c ≠ '<')
    (h' : c ≠ '-') :
    macroTokens (c :: s) = do
      let keys ← macroTokens s
      return [c] :: keys := by
  rw [macroTokens, if_pos h, if_neg h']

theorem macroTokens_name {key : List Char} (s : List Char) (h : '>' ∉ key) :
    macroTokens ('<' :: (key ++ '>' :: s)) = do
      let keys ← macroTokens s
      return key :: keys := by
  rw [macroTokens, if_neg (fun hne => hne rfl)]
  have hbreak : breakAt ['>'] (key ++ '>' :: s) = some (key, s) :=
    breakAt_append h
  split
  · rename_i hnone
    rw [hbreak] at hnone
    cases hnone
  · rename_i found rest hsome
    rw [hbreak] at hsome
    cases hsome
    rfl

/-- The first key of a macro is taken for itself. -/
theorem macroTokens_format (hU : Breaks U) (h : Typed e) (s : List Char) :
    macroTokens (e.keySequenceFormat U ++ s) = do
      let keys ← macroTokens s
      return e.text :: keys := by
  rcases text_start h with ⟨c, htext, hminus, hless, -⟩ |
    ⟨c, d, rest, htext, hc, hd⟩
  · have hformat : e.keySequenceFormat U = [c] := by
      unfold KeyEvent.keySequenceFormat
      rw [htext]
      exact if_neg (Nat.lt_irrefl 1)
    rw [hformat, htext]
    exact macroTokens_char s hless hminus
  · have hcloser : '>' ∉ e.text := by
      rw [text_eq]
      unfold joined
      intro hmem
      rcases List.mem_append.mp hmem with hmem | hmem
      · obtain ⟨t, ht, hin⟩ := List.mem_flatMap.mp hmem
        rcases List.mem_append.mp hin with hin | hin
        · exact (modifierTokens_plain _ t ht).2 hin
        · exact absurd (List.mem_singleton.mp hin) (by decide)
      · exact (text_plain h).2 hmem
    have hformat : e.keySequenceFormat U = '<' :: e.text ++ ['>'] := by
      unfold KeyEvent.keySequenceFormat
      refine if_pos ?_
      rw [htext]
      exact one_lt_graphemeCount (hU c d rest hc hd)
    rw [hformat, List.cons_append, List.cons_append, List.append_assoc]
    exact macroTokens_name s hcloser

theorem macroTokens_formats (hU : Breaks U) {es : List KeyEvent}
    (h : ∀ e ∈ es, Typed e) :
    macroTokens (es.flatMap (KeyEvent.keySequenceFormat U)) =
      .ok (es.map KeyEvent.text) := by
  induction es with
  | nil => rw [List.flatMap_nil, macroTokens, List.map_nil]
  | cons e es ih =>
      obtain ⟨he, hes⟩ := List.forall_mem_cons.mp h
      rw [List.flatMap_cons, macroTokens_format hU he, ih hes]
      rfl

theorem mapM_fromStr {es : List KeyEvent} (h : ∀ e ∈ es, Typed e) :
    (es.map KeyEvent.text).mapM fromStr = .ok es := by
  induction es with
  | nil => rfl
  | cons e es ih =>
      obtain ⟨he, hes⟩ := List.forall_mem_cons.mp h
      rw [List.map_cons, List.mapM_cons, fromStr_text he, ih hes]
      rfl

/-- A macro is read back as the keys that were recorded. -/
theorem parse_macro_law (U : Unicode) (hU : Breaks U) (es : List KeyEvent)
    (h : ∀ e ∈ es, ∃ s, fromStr s = .ok e) :
    parseMacro (es.flatMap (KeyEvent.keySequenceFormat U)) = .ok es := by
  have htyped : ∀ e ∈ es, Typed e := fun e he => by
    obtain ⟨s, hs⟩ := h e he
    exact typed_fromStr hs
  unfold parseMacro
  rw [macroTokens_formats hU htyped]
  exact mapM_fromStr htyped

theorem parse_macro_law_window :
    parseMacro ([⟨.char 'w', .CONTROL⟩, ⟨.char 'v', .NONE⟩,
        ⟨.char '-', .NONE⟩].flatMap (KeyEvent.keySequenceFormat .ascii)) =
      .ok [⟨.char 'w', .CONTROL⟩, ⟨.char 'v', .NONE⟩, ⟨.char '-', .NONE⟩] := by
  refine parse_macro_law .ascii (fun _ _ _ _ _ => rfl) _ fun e he => ?_
  rcases List.mem_cons.mp he with rfl | he
  · exact ⟨"C-w".toList, by decide⟩
  rcases List.mem_cons.mp he with rfl | he
  · exact ⟨"v".toList, by decide⟩
  · obtain rfl := List.mem_singleton.mp he
    exact ⟨"-".toList, by decide⟩

end Zmax.Input
