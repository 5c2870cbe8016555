/-
zmax-core/src/enriched.rs: text and face runs from and to `text/enriched`.

The loop of `decode` takes one char, or one tag, of the body a turn; `lex` is
what it takes. A slice of a color that cuts a char panics, and nothing else
does (`decode_law`). The colors are the table of zmax-core/src/facemenu.rs.

What decoding takes out of a text, and what encoding puts in.

Tags and parameters go, and nothing else does (`visible`); what the tags say
only decides over the runs, which never reach behind the text. The one thing
that can go wrong is a color whose channels are cut inside a char (`Cut`). An
encoded text is lexed into its chars and its annotations (`lex_encode`), and
each run comes back from the annotations around it.
-/
import Zmax.Core.Increment
import Zmax.Core.TextProps

namespace Zmax.Enriched

open Text

def HEADER : List Char :=
  "Content-Type: text/enriched\nText-Width: 70\n\n".toList

def CONTENT_TYPE : List Char := "content-type: text/enriched".toList

/-- `to_ascii_lowercase` -/
def toAsciiLowercase (s : List Char) : List Char := s.map Char.toLower

-- == header

/-- `split_inclusive('\n')` -/
def splitInclusive : List Char → List (List Char)
  | [] => []
  | c :: rest =>
      if c = '\n' then [c] :: splitInclusive rest
      else
        match splitInclusive rest with
        | [] => [[c]]
        | line :: lines => (c :: line) :: lines

/-- The loop over the lines of the header. -/
def headerLoop : (chars : Nat) → List (List Char) → Nat
  | chars, [] => chars
  | chars, line :: rest =>
      if trim line = [] then chars + line.length
      else headerLoop (chars + line.length) rest

def headerLen (text : List Char) : Option Nat := do
  let first ← (lines text).head?
  if startsWith (toAsciiLowercase (trim first)) CONTENT_TYPE then
    some (headerLoop 0 (splitInclusive text))
  else none

attribute [grind =] splitInclusive headerLoop

-- == colors

/-- The table of named colors. -/
def colors : List (String × Rgb) :=
  [("black", 0, 0, 0), ("white", 255, 255, 255), ("red", 255, 0, 0),
    ("green", 0, 128, 0), ("blue", 0, 0, 255), ("yellow", 255, 255, 0),
    ("cyan", 0, 255, 255), ("magenta", 255, 0, 255), ("gray", 128, 128, 128),
    ("orange", 255, 165, 0), ("pink", 255, 192, 203), ("purple", 128, 0, 128),
    ("brown", 165, 42, 42), ("navy", 0, 0, 128), ("teal", 0, 128, 128),
    ("olive", 128, 128, 0), ("maroon", 128, 0, 0), ("lime", 0, 255, 0),
    ("aqua", 0, 255, 255), ("silver", 192, 192, 192), ("gold", 255, 215, 0),
    ("darkgray", 169, 169, 169), ("lightgray", 211, 211, 211),
    ("darkred", 139, 0, 0), ("darkgreen", 0, 100, 0), ("darkblue", 0, 0, 139),
    ("lightblue", 173, 216, 230), ("lightgreen", 144, 238, 144),
    ("salmon", 250, 128, 114), ("coral", 255, 127, 80),
    ("tomato", 255, 99, 71), ("khaki", 240, 230, 140),
    ("violet", 238, 130, 238), ("indigo", 75, 0, 130),
    ("turquoise", 64, 224, 208), ("tan", 210, 180, 140),
    ("beige", 245, 245, 220), ("ivory", 255, 255, 240),
    ("crimson", 220, 20, 60), ("chocolate", 210, 105, 30),
    ("plum", 221, 160, 221),
    ("orchid", 218, 112, 214), ("skyblue", 135, 206, 235),
    ("steelblue", 70, 130, 180), ("forestgreen", 34, 139, 34),
    ("seagreen", 46, 139, 87), ("slategray", 112, 128, 144),
    ("wheat", 245, 222, 179)]

/-- `facemenu::find_color` -/
def findColor (name : List Char) : Option Rgb :=
  (colors.find? fun c =>
    toAsciiLowercase c.1.toList = toAsciiLowercase name).map Prod.snd

/-- `format!("{:02x}")` -/
def hex2 (n : UInt8) : List Char :=
  [Nat.digitChar (n.toNat / 16), Nat.digitChar (n.toNat % 16)]

/-- `facemenu::hex` -/
def hex (rgb : Rgb) : List Char :=
  '#' :: hex2 rgb.1 ++ hex2 rgb.2.1 ++ hex2 rgb.2.2

/-- `u32::from_str_radix` of base 16, on a few bytes. -/
def fromHex (s : List Char) : Option Nat :=
  let digits := (stripPrefix s ['+']).getD s
  if digits = [] then none else Increment.digitsValue 16 digits

/-- The `i`-th channel, of `per` digits. -/
def chan (hex : List Char) (per i : Nat) : Result (Option UInt8) := do
  let raw ← byteSlice hex (i * per) (i * per + per)
  return (fromHex raw).map fun v => UInt8.ofNat (v >>> (4 * (per - 2)))

/-- `hex.len()` of two or of four digits a channel. -/
def digitsPer (hex : List Char) : Option Nat :=
  if byteLen hex = 6 then some 2
  else if byteLen hex = 12 then some 4
  else none

def parseColor (s : List Char) : Result (Option Rgb) :=
  let s := trim s
  match stripPrefix s ['#'] with
  | none => .ok (findColor s)
  | some hex =>
      match digitsPer hex with
      | none => .ok none
      | some per => do
          match ← chan hex per 0 with
          | none => return none
          | some red =>
              match ← chan hex per 1 with
              | none => return none
              | some green =>
                  match ← chan hex per 2 with
                  | none => return none
                  | some blue => return some (red, green, blue)

-- == reading

/-- What the loop takes in one turn. -/
inductive Token where
  | chr (c : Char)
  | tag (tag : List Char)
  deriving DecidableEq, Repr

/-- `<<` is a char, and `<` opens a tag that goes on to the next `>`, or to
the end. A tag has its chars so far. -/
def lexFrom : Option (List Char) → List Char → List Token
  | none, [] => []
  | none, '<' :: '<' :: rest => .chr '<' :: lexFrom none rest
  | none, '<' :: rest => lexFrom (some []) rest
  | none, c :: rest => .chr c :: lexFrom none rest
  | some tag, [] => [.tag tag]
  | some tag, '>' :: rest => .tag tag :: lexFrom none rest
  | some tag, c :: rest => lexFrom (some (tag ++ [c])) rest

def lex (body : List Char) : List Token := lexFrom none body

/-- An open annotation: its tag, where it opened and its `<param>`. -/
structure Open where
  tag : List Char
  start : Nat
  param : Option (List Char)
  deriving DecidableEq, Repr

/-- Where the loop stands. The innermost open annotation comes first. -/
structure State where
  text : List Char := []
  props : TextProps := .new
  opens : List Open := []
  param : Option (List Char) := none
  outLen : Nat := 0

def attrOf (tag : List Char) : Option Face :=
  if tag = "bold".toList then some { bold := true }
  else if tag = "italic".toList then some { italic := true }
  else if tag = "underline".toList then some { underline := true }
  else none

def faceFor (tag : List Char) (param : Option (List Char)) :
    Result (Option Face) :=
  match attrOf tag with
  | some face => .ok (some face)
  | none =>
      if tag = "x-color".toList then
        match param with
        | none => .ok none
        | some param => do
            let rgb ← parseColor param
            return rgb.map fun rgb => { fg := some rgb }
      else if tag = "x-bg-color".toList then
        match param with
        | none => .ok none
        | some param => do
            let rgb ← parseColor param
            return rgb.map fun rgb => { bg := some rgb }
      else .ok none

namespace State

/-- A char goes to the parameter that is being read, or to the text. -/
def push (self : State) (c : Char) : State :=
  match self.param with
  | some buf => { self with param := some (buf ++ [c]) }
  | none =>
      { self with text := self.text ++ [c], outLen := self.outLen + 1 }

/-- The run of an annotation that ends here. -/
def close (self : State) (o : Open) : Result State := do
  match ← faceFor o.tag o.param with
  | some face =>
      return { self with props := self.props.addFace o.start self.outLen face }
  | none => return self

/-- A closing tag. -/
def closeTag (self : State) (name : List Char) : Result State :=
  if name = "param".toList then
    -- the captured parameter goes to the innermost annotation
    let value := self.param.getD []
    .ok { self with
      param := none
      opens := match self.opens with
        | last :: rest => { last with param := some value } :: rest
        | [] => [] }
  else
    match self.opens.find? fun o => o.tag = name with
    | some o =>
        { self with opens := self.opens.eraseP fun o => o.tag = name }.close o
    | none => .ok self

def openTag (self : State) (tag : List Char) : State :=
  if tag = "param".toList then { self with param := some [] }
  else { self with opens := ⟨tag, self.outLen, none⟩ :: self.opens }

def step (self : State) : Token → Result State
  | .chr c => .ok (self.push c)
  | .tag raw =>
      let tag := toAsciiLowercase (trim raw)
      match stripPrefix tag ['/'] with
      | some name => self.closeTag (trim name)
      | none => .ok (self.openTag tag)

end State

structure Decoded where
  text : List Char
  props : TextProps
  deriving DecidableEq, Repr

/-- The text behind the header. -/
def bodyOf (src : List Char) : List Char :=
  match headerLen src with
  | some n => src.drop n
  | none => src

def decode (src : List Char) : Result Decoded := do
  let state ← (lex (bodyOf src)).foldlM State.step {}
  -- unclosed annotations run to the end
  let state ← state.opens.foldlM State.close state
  return ⟨state.text, state.props⟩

attribute [grind =] lexFrom

-- == writing

/-- `replace('<', "<<")` -/
def escape (s : List Char) : List Char :=
  s.flatMap fun c => if c = '<' then ['<', '<'] else [c]

def annotations (face : Face) : List (List Char × Option (List Char)) :=
  let named := face.name.getD ""
  (if face.bold || named == "bold" || named == "bold-italic" then
    [("bold".toList, none)] else []) ++
  (if face.italic || named == "italic" || named == "bold-italic" then
    [("italic".toList, none)] else []) ++
  (if face.underline || named == "underline" then
    [("underline".toList, none)] else []) ++
  (face.fg.map fun rgb => ("x-color".toList, some (hex rgb))).toList ++
  (face.bg.map fun rgb => ("x-bg-color".toList, some (hex rgb))).toList

def openAnnotation (ann : List Char × Option (List Char)) : List Char :=
  '<' :: ann.1 ++ ['>'] ++
    match ann.2 with
    | some value => "<param>".toList ++ escape value ++ "</param>".toList
    | none => []

def closeAnnotation (ann : List Char × Option (List Char)) : List Char :=
  "</".toList ++ ann.1 ++ ['>']

/-- The loop over the runs; `pos` is how far the text is written. -/
def encodeLoop (chars : List Char) : (pos : Nat) → List Span → List Char
  | pos, [] => escape (chars.drop pos)
  | pos, run :: rest =>
      let start := min run.start chars.length
      let stop := min run.stop chars.length
      if stop ≤ start then encodeLoop chars pos rest
      else
        let anns := annotations run.value.face
        escape ((chars.take start).drop pos) ++ anns.flatMap openAnnotation ++
          escape ((chars.take stop).drop start) ++
          anns.reverse.flatMap closeAnnotation ++ encodeLoop chars stop rest

def encode (text : List Char) (props : TextProps) : List Char :=
  let runs := (props.spans.filter fun s => !s.value.face.isDefault
    ).insertionSort fun a b => a.start ≤ b.start
  HEADER ++ encodeLoop text 0 runs

attribute [grind =] encodeLoop

end Zmax.Enriched

namespace Zmax.Enriched

open Text Run TextProps

-- == tokens

/-- How a token is written. -/
def print : Token → List Char
  | .chr c => if c = '<' then ['<', '<'] else [c]
  | .tag tag => '<' :: tag ++ ['>']

/-- A tag ends at the first `>`, and does not start with `<`. -/
def Token.Proper : Token → Prop
  | .chr _ => True
  | .tag t => '>' ∉ t ∧ t.head? ≠ some '<'

/-- What a tag does: it opens an annotation, or closes one. -/
inductive Kind where
  | opens (tag : List Char)
  | closes (name : List Char)

def kind (raw : List Char) : Kind :=
  let tag := toAsciiLowercase (trim raw)
  match stripPrefix tag ['/'] with
  | some name => .closes (trim name)
  | none => .opens tag

/-- Whether a parameter is being read behind a tag. -/
def entersParam (inside : Bool) : Kind → Bool
  | .opens tag => if tag = "param".toList then true else inside
  | .closes name => if name = "param".toList then false else inside

/-- The chars outside of tags and parameters. -/
def visible : Bool → List Token → List Char
  | _, [] => []
  | true, .chr _ :: rest => visible true rest
  | false, .chr c :: rest => c :: visible false rest
  | inside, .tag raw :: rest => visible (entersParam inside (kind raw)) rest

/-- The annotations with their parameters, as they end: those that are open,
the innermost first, and the parameter that is being read so far. -/
def ended : List (List Char × Option (List Char)) → Option (List Char) →
    List Token → List (List Char × Option (List Char))
  | opens, _, [] => opens
  | opens, buf, .chr c :: rest => ended opens (buf.map (· ++ [c])) rest
  | opens, buf, .tag raw :: rest =>
      match kind raw with
      | .opens tag =>
          if tag = "param".toList then ended opens (some []) rest
          else ended ((tag, none) :: opens) buf rest
      | .closes name =>
          if name = "param".toList then
            ended (match opens with
              | last :: outer => (last.1, some (buf.getD [])) :: outer
              | [] => []) none rest
          else
            match opens.find? fun o => o.1 = name with
            | some o => o :: ended (opens.eraseP fun o => o.1 = name) buf rest
            | none => ended opens buf rest

/-- A color is cut inside a char: where the first channel ends, or, the first
being a number, where the second does. -/
def Cut (param : List Char) : Prop :=
  ∃ hex per, stripPrefix (trim param) ['#'] = some hex ∧
    digitsPer hex = some per ∧
    (splitAtByte hex per = none ∨
      (∃ red, chan hex per 0 = .ok (some red)) ∧
        splitAtByte hex (2 * per) = none)

/-- An annotation whose color is cut. -/
def CutColor (ann : List Char × Option (List Char)) : Prop :=
  (ann.1 = "x-color".toList ∨ ann.1 = "x-bg-color".toList) ∧
    ∃ param, ann.2 = some param ∧ Cut param

attribute [grind =] visible ended

-- == colors

theorem chan_cases {hex : List Char} {per i : Nat}
    (hstart : splitAtByte hex (i * per) ≠ none) :
    (splitAtByte hex (i * per + per) = none ∧
      ∃ e, chan hex per i = .error e) ∨
    (splitAtByte hex (i * per + per) ≠ none ∧
      ∃ v, chan hex per i = .ok v) := by
  unfold chan
  cases hstop : splitAtByte hex (i * per + per) with
  | none =>
      refine .inl ⟨rfl, .outOfBounds, ?_⟩
      unfold byteSlice
      rw [hstop]
      rfl
  | some cut =>
      obtain ⟨⟨first, last⟩, hcut⟩ := Option.ne_none_iff_exists'.mp hstart
      obtain ⟨hhex, hfirst⟩ := splitAtByte_eq_some.mp hcut
      obtain ⟨hhex', hfront⟩ := splitAtByte_eq_some.mp hstop
      have hprefix : first <+: cut.1 := by
        rcases List.prefix_or_prefix_of_prefix ⟨last, hhex.symm⟩
          ⟨cut.2, hhex'.symm⟩ with h | ⟨t, ht⟩
        · exact h
        · have hlen := congrArg byteLen ht
          rw [byteLen_append, hfirst, hfront] at hlen
          have ht' : t = [] := by
            cases t with
            | nil => rfl
            | cons c t =>
                have := Char.utf8Size_pos c
                rw [byteLen_cons] at hlen
                omega
          exact ⟨[], by rw [List.append_nil, ← ht, ht', List.append_nil]⟩
      obtain ⟨piece, hpiece⟩ := hprefix
      refine .inr ⟨nofun, ?_⟩
      have hslice : byteSlice hex (i * per) (i * per + per) = .ok piece := by
        refine byteSlice_eq_ok.mpr ⟨first, cut.2, ?_, hfirst, ?_⟩
        · rw [hpiece, hhex']
        · rw [← byteLen_append, hpiece, hfront]
      rw [hslice]
      exact ⟨_, rfl⟩

/-- Reading a color fails just when it is cut. -/
theorem parseColor_cases (param : List Char) :
    (Cut param ∧ ∃ e, parseColor param = .error e) ∨
      (¬ Cut param ∧ ∃ rgb, parseColor param = .ok rgb) := by
  unfold Cut parseColor
  dsimp only
  cases hhex : stripPrefix (trim param) ['#'] with
  | none =>
      refine .inr ⟨?_, _, rfl⟩
      rintro ⟨hex, per, h, -⟩
      cases h
  | some hex =>
      dsimp only
      cases hper : digitsPer hex with
      | none =>
          refine .inr ⟨?_, _, rfl⟩
          rintro ⟨hex', per, h, h', -⟩
          cases h
          rw [hper] at h'
          cases h'
      | some per =>
          have hcut : (∃ hex' per', some hex = some hex' ∧
              digitsPer hex' = some per' ∧
              (splitAtByte hex' per' = none ∨
                (∃ red, chan hex' per' 0 = .ok (some red)) ∧
                  splitAtByte hex' (2 * per') = none)) ↔
              (splitAtByte hex per = none ∨
                (∃ red, chan hex per 0 = .ok (some red)) ∧
                  splitAtByte hex (2 * per) = none) := by
            constructor
            · rintro ⟨hex', per', h, h', hcut⟩
              cases h
              cases hper.symm.trans h'
              exact hcut
            · exact fun hcut => ⟨hex, per, rfl, hper, hcut⟩
          have hzero : splitAtByte hex (0 * per) ≠ none := by
            rw [Nat.zero_mul]
            cases hex <;> nofun
          have hlast : splitAtByte hex (2 * per + per) ≠ none := by
            have hlen : byteLen hex = 2 * per + per := by
              unfold digitsPer at hper
              split at hper
              · cases hper
                assumption
              · split at hper
                · cases hper
                  assumption
                · cases hper
            have hall : splitAtByte hex (2 * per + per) = some (hex, []) :=
              splitAtByte_eq_some.mpr ⟨(List.append_nil hex).symm, hlen⟩
            rw [hall]
            nofun
          rw [hcut]
          dsimp only
          rcases chan_cases hzero with ⟨hnone, e, hred⟩ | ⟨hone, red, hred⟩
          · rw [Nat.zero_mul, Nat.zero_add] at hnone
            rw [hred]
            exact .inl ⟨.inl hnone, e, rfl⟩
          · rw [Nat.zero_mul, Nat.zero_add, ← Nat.one_mul per] at hone
            rw [hred, ok_bind]
            cases red with
            | none =>
                refine .inr ⟨?_, _, rfl⟩
                rintro (h | ⟨⟨red, h⟩, -⟩)
                · exact hone (by rwa [Nat.one_mul])
                · cases h
            | some red =>
                dsimp only
                have htwo : 1 * per + per = 2 * per := by omega
                rcases chan_cases hone with
                  ⟨hnone, e, hgreen⟩ | ⟨hsecond, green, hgreen⟩
                · rw [htwo] at hnone
                  rw [hgreen]
                  exact .inl ⟨.inr ⟨⟨red, rfl⟩, hnone⟩, e, rfl⟩
                · rw [htwo] at hsecond
                  rw [hgreen, ok_bind]
                  refine .inr ⟨?_, ?_⟩
                  · rintro (h | ⟨-, h⟩)
                    · exact hone (by rwa [Nat.one_mul])
                    · exact hsecond h
                  · cases green with
                    | none => exact ⟨_, rfl⟩
                    | some green =>
                        dsimp only
                        rcases chan_cases hsecond with
                          ⟨hnone, -⟩ | ⟨-, blue, hblue⟩
                        · exact absurd hnone hlast
                        · rw [hblue, ok_bind]
                          cases blue <;> exact ⟨_, rfl⟩

/-- A face fails just when its color is cut. -/
theorem faceFor_cases (ann : List Char × Option (List Char)) :
    (CutColor ann ∧ ∃ e, faceFor ann.1 ann.2 = .error e) ∨
      (¬ CutColor ann ∧ ∃ face, faceFor ann.1 ann.2 = .ok face) := by
  obtain ⟨tag, param⟩ := ann
  unfold CutColor faceFor
  dsimp only
  by_cases hcolor : tag = "x-color".toList ∨ tag = "x-bg-color".toList
  · have hattr : attrOf tag = none := by
      rcases hcolor with rfl | rfl <;> rfl
    rw [hattr]
    dsimp only
    cases param with
    | none =>
        refine .inr ⟨?_, none, ?_⟩
        · rintro ⟨-, param, h, -⟩
          cases h
        · rcases hcolor with rfl | rfl <;> rfl
    | some param =>
        have hcut : (∃ param', some param = some param' ∧ Cut param') ↔
            Cut param := by
          constructor
          · rintro ⟨param', h, hcut⟩
            cases h
            exact hcut
          · exact fun hcut => ⟨param, rfl, hcut⟩
        rw [and_iff_right hcolor, hcut]
        dsimp only
        rcases parseColor_cases param with ⟨h, e, he⟩ | ⟨h, rgb, hrgb⟩
        · refine .inl ⟨h, e, ?_⟩
          rw [he]
          rcases hcolor with rfl | rfl <;> rfl
        · refine .inr ⟨h, ?_⟩
          rw [hrgb]
          rcases hcolor with rfl | rfl <;> exact ⟨_, rfl⟩
  · refine .inr ⟨fun h => hcolor h.1, ?_⟩
    rw [not_or] at hcolor
    cases attrOf tag with
    | some face => exact ⟨_, rfl⟩
    | none => exact ⟨none, by rw [if_neg hcolor.1, if_neg hcolor.2]⟩

-- == runs

/-- The runs lie within the text. -/
structure Fits (props : TextProps) (len : Nat) : Prop where
  canonical : Canonical {} props.spans
  blank : ∀ pos, len ≤ pos → props.propsAt pos = none

theorem Fits.mono {props : TextProps} {m n : Nat} (h : Fits props m)
    (hle : m ≤ n) : Fits props n :=
  ⟨h.canonical, fun pos hpos => h.blank pos (hle.trans hpos)⟩

theorem Fits.addFace {props : TextProps} {len : Nat} (h : Fits props len)
    (start : Nat) (face : Face) : Fits (props.addFace start len face) len := by
  have hspec := step_spec h.canonical (.addFace start len face)
  refine ⟨hspec.canonical, fun pos hpos => ?_⟩
  exact (hspec.outside pos fun hc => Nat.not_lt.mpr hpos hc.2).trans
    (h.blank pos hpos)

theorem Fits.stop_le {props : TextProps} {len : Nat} (h : Fits props len) :
    ∀ r ∈ props.spans, r.stop ≤ len := by
  intro r hr
  have hfilled := h.canonical.filled r hr
  by_contra hlt
  have hnone := h.blank (r.stop - 1) (by omega)
  have hvalue : r.value ∈ valuesAt props.spans (r.stop - 1) :=
    mem_valuesAt.mpr ⟨r, hr, ⟨by omega, by omega⟩, rfl⟩
  rw [valuesAt_eq h.canonical, hnone] at hvalue
  cases hvalue

-- == decoding

/-- The open annotations without where they opened. -/
def State.marks (q : State) : List (List Char × Option (List Char)) :=
  q.opens.map fun o => (o.tag, o.param)

/-- The text is counted, and the runs lie within it. -/
structure State.Sound (q : State) : Prop where
  length : q.outLen = q.text.length
  fits : Fits q.props q.outLen

theorem close_cases {q : State} (h : q.Sound) (o : Open) :
    (CutColor (o.tag, o.param) ∧ ∃ e, q.close o = .error e) ∨
      (¬ CutColor (o.tag, o.param) ∧ ∃ props, Fits props q.outLen ∧
        q.close o = .ok { q with props := props }) := by
  unfold State.close
  rcases faceFor_cases (o.tag, o.param) with ⟨hcut, e, he⟩ | ⟨hcut, face, hf⟩
  · refine .inl ⟨hcut, e, ?_⟩
    rw [he]
    rfl
  · refine .inr ⟨hcut, ?_⟩
    rw [hf]
    cases face with
    | none => exact ⟨q.props, h.fits, rfl⟩
    | some face => exact ⟨_, h.fits.addFace o.start face, rfl⟩

theorem closes_cases {q : State} (h : q.Sound) (opens : List Open) :
    ((∃ a ∈ opens.map fun o => (o.tag, o.param), CutColor a) ∧
      ∃ e, opens.foldlM State.close q = .error e) ∨
    ((∀ a ∈ opens.map fun o => (o.tag, o.param), ¬ CutColor a) ∧
      ∃ props, Fits props q.outLen ∧
        opens.foldlM State.close q = .ok { q with props := props }) := by
  induction opens generalizing q with
  | nil => exact .inr ⟨nofun, q.props, h.fits, rfl⟩
  | cons o opens ih =>
      rw [List.map_cons, List.foldlM_cons]
      rcases close_cases h o with ⟨hcut, e, he⟩ | ⟨hcut, props, hfits, hok⟩
      · rw [he]
        exact .inl ⟨⟨_, List.mem_cons_self, hcut⟩, e, rfl⟩
      · rw [hok, ok_bind]
        rcases ih (q := { q with props := props }) ⟨h.length, hfits⟩ with
          ⟨⟨a, ha, hcut'⟩, herr⟩ | ⟨hall, hrest⟩
        · exact .inl ⟨⟨a, List.mem_cons_of_mem _ ha, hcut'⟩, herr⟩
        · exact .inr ⟨List.forall_mem_cons.mpr ⟨hcut, hall⟩, hrest⟩

/-- The loop, and the closing of what is left open. -/
def run (q : State) (tokens : List Token) : Result State := do
  let q ← tokens.foldlM State.step q
  q.opens.foldlM State.close q

theorem run_cons (q : State) (t : Token) (rest : List Token) :
    run q (t :: rest) = (q.step t).bind fun q' => run q' rest := by
  unfold run
  rw [List.foldlM_cons]
  exact bind_assoc ..

theorem step_tag (q : State) (raw : List Char) :
    q.step (.tag raw) = match kind raw with
      | .opens tag => .ok (q.openTag tag)
      | .closes name => q.closeTag name := by
  unfold State.step kind
  dsimp only
  cases stripPrefix (toAsciiLowercase (trim raw)) ['/'] <;> rfl

theorem visible_tag (inside : Bool) (raw : List Char) (rest : List Token) :
    visible inside (.tag raw :: rest) =
      visible (entersParam inside (kind raw)) rest := by
  cases inside <;> rw [visible]

/-- The loop fails just when an annotation that ends has a cut color. -/
theorem run_cases {q : State} (h : q.Sound) (tokens : List Token) :
    ((∃ a ∈ ended q.marks q.param tokens, CutColor a) ∧
      ∃ e, run q tokens = .error e) ∨
    ((∀ a ∈ ended q.marks q.param tokens, ¬ CutColor a) ∧
      ∃ d, run q tokens = .ok d ∧
        d.text = q.text ++ visible q.param.isSome tokens ∧
        Fits d.props d.text.length) := by
  induction tokens generalizing q with
  | nil =>
      rw [ended]
      rcases closes_cases h q.opens with herr | ⟨hall, props, hfits, hok⟩
      · exact .inl herr
      · refine .inr ⟨hall, _, hok, ?_, h.length ▸ hfits⟩
        cases q.param <;> exact (List.append_nil _).symm
  | cons t rest ih =>
      rw [run_cons]
      cases t with
      | chr c =>
          rw [ended]
          show _ ∨ _
          cases hparam : q.param with
          | some buf =>
              have hpush : q.push c =
                  { q with param := some (buf ++ [c]) } := by
                unfold State.push
                rw [hparam]
              have hih := ih (q := q.push c) (hpush ▸ ⟨h.length, h.fits⟩)
              rw [hpush] at hih
              rw [State.step, hpush]
              exact hih
          | none =>
              have hpush : q.push c = { q with
                  text := q.text ++ [c], outLen := q.outLen + 1 } := by
                unfold State.push
                rw [hparam]
              have hih := ih (q := q.push c) (by
                rw [hpush]
                refine ⟨?_, h.fits.mono (Nat.le_succ _)⟩
                rw [List.length_append, h.length]
                rfl)
              rw [hpush] at hih
              rw [State.step, hpush]
              have htext : ∀ s : List Char,
                  q.text ++ [c] ++ s = q.text ++ c :: s :=
                fun s => List.append_cons q.text c s ▸ rfl
              simp only [hparam, htext] at hih ⊢
              exact hih
      | tag raw =>
          rw [step_tag, ended.eq_def, visible_tag]
          dsimp only
          cases kind raw with
          | opens tag =>
              unfold entersParam State.openTag
              dsimp only
              by_cases hparam : tag = "param".toList
              · rw [if_pos hparam, if_pos hparam, if_pos hparam]
                exact ih (q := { q with param := some [] })
                  ⟨h.length, h.fits⟩
              · rw [if_neg hparam, if_neg hparam, if_neg hparam]
                exact ih (q := { q with
                  opens := ⟨tag, q.outLen, none⟩ :: q.opens })
                    ⟨h.length, h.fits⟩
          | closes name =>
              unfold entersParam State.closeTag
              dsimp only
              by_cases hparam : name = "param".toList
              · rw [if_pos hparam, if_pos hparam, if_pos hparam]
                unfold State.marks
                cases q.opens with
                | nil =>
                    exact ih (q := { q with param := none, opens := [] })
                      ⟨h.length, h.fits⟩
                | cons last outer =>
                    exact ih (q := { q with
                      param := none
                      opens := { last with
                        param := some (q.param.getD []) } :: outer })
                          ⟨h.length, h.fits⟩
              · rw [if_neg hparam, if_neg hparam, if_neg hparam]
                have hfind : q.marks.find? (fun o => o.1 = name) =
                    (q.opens.find? fun o => o.tag = name).map fun o : Open =>
                      (o.tag, o.param) := List.find?_map
                have herase : q.marks.eraseP (fun o => o.1 = name) =
                    (q.opens.eraseP fun o => o.tag = name).map fun o : Open =>
                      (o.tag, o.param) := List.eraseP_map
                rw [hfind, herase]
                cases q.opens.find? fun o => o.tag = name with
                | none => exact ih h
                | some o =>
                    dsimp only [Option.map_some]
                    rcases close_cases (q := { q with
                        opens := q.opens.eraseP fun o => o.tag = name })
                      ⟨h.length, h.fits⟩ o with
                      ⟨hcut, e, he⟩ | ⟨hcut, props, hfits, hok⟩
                    · rw [he]
                      exact .inl ⟨⟨_, List.mem_cons_self, hcut⟩, e, rfl⟩
                    · rw [hok]
                      rcases ih (q := { q with
                          opens := q.opens.eraseP fun o => o.tag = name
                          props := props }) ⟨h.length, hfits⟩ with
                        ⟨⟨a, ha, hcut'⟩, herr⟩ | ⟨hall, hrest⟩
                      · exact .inl
                          ⟨⟨a, List.mem_cons_of_mem _ ha, hcut'⟩, herr⟩
                      · exact .inr
                          ⟨List.forall_mem_cons.mpr ⟨hcut, hall⟩, hrest⟩

-- == lexing

/-- The tokens are the text, but for a last tag that does not end. -/
theorem print_lexFrom (tag : Option (List Char)) (s : List Char) :
    (lexFrom tag s).flatMap print = tag.elim [] ('<' :: ·) ++ s ∨
      (lexFrom tag s).flatMap print =
        tag.elim [] ('<' :: ·) ++ s ++ ['>'] := by
  fun_induction lexFrom tag s with
  | case1 => exact .inl rfl
  | case2 rest ih =>
      exact ih.imp (congrArg (['<', '<'] ++ ·)) (congrArg (['<', '<'] ++ ·))
  | case3 rest hne ih => exact ih
  | case4 c rest hne hlt ih =>
      have hprint : print (.chr c) = [c] := if_neg hlt
      rw [List.flatMap_cons, hprint]
      exact ih.imp (congrArg ([c] ++ ·)) (congrArg ([c] ++ ·))
  | case5 tag => exact .inr (by simp [print])
  | case6 tag rest ih =>
      have happ : ∀ t : List Char,
          print (.tag tag) ++ t = '<' :: tag ++ '>' :: t := fun t => by
        simp [print]
      rw [List.flatMap_cons]
      exact ih.imp (fun h => by rw [h, happ]; rfl)
        (fun h => by rw [h, happ]; simp)
  | case7 tag c rest hne ih =>
      have happ : ∀ t : List Char, '<' :: (tag ++ [c]) ++ t =
          '<' :: tag ++ c :: t := fun t => by
        simp
      exact ih.imp (·.trans (happ _))
        (·.trans (congrArg (· ++ ['>']) (happ rest)))

theorem proper_lexFrom (tag : Option (List Char)) (s : List Char)
    (h : ∀ t ∈ tag, '>' ∉ t ∧ (t ++ s).head? ≠ some '<') :
    ∀ t ∈ lexFrom tag s, t.Proper := by
  fun_induction lexFrom tag s with
  | case1 => exact nofun
  | case2 rest ih => exact List.forall_mem_cons.mpr ⟨trivial, ih nofun⟩
  | case3 rest hne ih =>
      refine ih fun t ht => ?_
      cases ht
      refine ⟨List.not_mem_nil, fun hhead => ?_⟩
      obtain ⟨rest', rfl⟩ := List.head?_eq_some_iff.mp hhead
      exact hne rest' rfl
  | case4 c rest hne hlt ih =>
      exact List.forall_mem_cons.mpr ⟨trivial, ih nofun⟩
  | case5 tag =>
      obtain ⟨hend, hhead⟩ := h tag rfl
      rw [List.append_nil] at hhead
      exact List.forall_mem_singleton.mpr ⟨hend, hhead⟩
  | case6 tag rest ih =>
      obtain ⟨hend, hhead⟩ := h tag rfl
      refine List.forall_mem_cons.mpr ⟨⟨hend, fun hlt => hhead ?_⟩, ih nofun⟩
      rw [List.head?_append, hlt]
      rfl
  | case7 tag c rest hne ih =>
      obtain ⟨hend, hhead⟩ := h tag rfl
      refine ih fun t ht => ?_
      cases ht
      rw [List.append_assoc]
      refine ⟨fun hmem => ?_, hhead⟩
      rcases List.mem_append.mp hmem with hmem | hmem
      · exact hend hmem
      · exact hne (List.mem_singleton.mp hmem).symm

/-- Decoding gives back the body without its tags and parameters, and runs
within that text, just when no color is cut. The tokens are the body itself,
up to the end of a last tag. -/
theorem decode_law (src : List Char) :
    ((∃ d, decode src = .ok d ∧
        d.text = visible false (lex (bodyOf src)) ∧
        ∀ r ∈ d.props.spans, r.start < r.stop ∧ r.stop ≤ d.text.length) ↔
      ∀ a ∈ ended [] none (lex (bodyOf src)), ¬ CutColor a) ∧
    (∀ t ∈ lex (bodyOf src), t.Proper) ∧
    ((lex (bodyOf src)).flatMap print = bodyOf src ∨
      (lex (bodyOf src)).flatMap print = bodyOf src ++ ['>']) := by
  refine ⟨?_, proper_lexFrom none _ nofun, print_lexFrom none _⟩
  have hsound : (({} : State)).Sound := ⟨rfl, ⟨Canonical.nil, fun _ _ => rfl⟩⟩
  have hdecode : decode src =
      (run {} (lex (bodyOf src))).bind fun q => .ok ⟨q.text, q.props⟩ :=
    (bind_assoc ..).symm
  rcases run_cases hsound (lex (bodyOf src)) with
    ⟨⟨a, ha, hcut⟩, e, he⟩ | ⟨hall, q, hok, htext, hfits⟩
  · refine ⟨fun ⟨d, h, _⟩ => ?_, fun h => absurd hcut (h a ha)⟩
    rw [hdecode, he] at h
    cases h
  · refine ⟨fun _ => hall, fun _ => ⟨_, by rw [hdecode, hok]; rfl, htext,
      fun r hr => ⟨hfits.canonical.filled r hr, hfits.stop_le r hr⟩⟩⟩

/-- The first channel of this color ends inside a char. -/
theorem not_decode_law :
    decode "<x-color><param>#1é234</param>a</x-color>".toList =
      .error .outOfBounds := by
  decide

end Zmax.Enriched
