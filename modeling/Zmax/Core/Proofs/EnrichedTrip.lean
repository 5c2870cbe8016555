/-
A text with its faces, written and read back.

What is written is lexed into the chars of the text and the tags around each
run (`lex_encodeLoop`). The annotations of a run are closed from the inside
out, each adding its part of the face to the chars of the run, which had none
(`run_annotated`); the parts together are the face.
-/
import Zmax.Core.Enriched

namespace Zmax.Enriched

open Text Run TextProps

variable {q : State} {s t rest body : List Char} {tokens : List Token}
  {len : Nat} {face : Face}

-- == header

theorem splitInclusive_append (h : '\n' ∉ s) (rest : List Char) :
    splitInclusive (s ++ '\n' :: rest) =
      (s ++ ['\n']) :: splitInclusive rest := by
  induction s with
  | nil => exact if_pos rfl
  | cons c s ih =>
      rw [List.mem_cons, not_or] at h
      rw [List.cons_append, splitInclusive, if_neg (Ne.symm h.1), ih h.2]
      rfl

/-- The header is found, and nothing behind it is taken for one. -/
theorem bodyOf_header (body : List Char) : bodyOf (HEADER ++ body) = body := by
  have hsplit : HEADER ++ body = "Content-Type: text/enriched".toList ++
      '\n' :: ("Text-Width: 70".toList ++ '\n' :: ([] ++ '\n' :: body)) := by
    have hheader : HEADER = "Content-Type: text/enriched".toList ++
        '\n' :: ("Text-Width: 70".toList ++ '\n' :: ['\n']) := by
      decide
    rw [hheader, List.append_assoc, List.cons_append, List.append_assoc,
      List.cons_append]
    exact rfl
  have hfirst : (lines (HEADER ++ body)).head? =
      some "Content-Type: text/enriched".toList := by
    unfold lines
    dsimp only
    rw [hsplit, List.splitOn_append_cons_self_of_not_mem (by decide),
      List.splitOn_append_cons_self_of_not_mem (by decide)]
    rfl
  have hlen : headerLen (HEADER ++ body) = some HEADER.length := by
    unfold headerLen
    rw [hfirst]
    have hstart : startsWith (toAsciiLowercase
        (trim "Content-Type: text/enriched".toList)) CONTENT_TYPE := by
      decide
    refine (Option.bind_some ..).trans ?_
    rw [if_pos hstart, hsplit, splitInclusive_append (by decide),
      splitInclusive_append (by decide), splitInclusive_append (by decide)]
    rfl
  unfold bodyOf
  rw [hlen]
  exact List.drop_left

-- == lexing

theorem lexFrom_escape (s rest : List Char) :
    lexFrom none (escape s ++ rest) = s.map .chr ++ lexFrom none rest := by
  induction s with
  | nil => rfl
  | cons c s ih =>
      unfold escape at ih ⊢
      rw [List.flatMap_cons, List.append_assoc, List.map_cons,
        List.cons_append, ← ih]
      by_cases hc : c = '<'
      · subst hc
        rfl
      · rw [if_neg hc, List.singleton_append, lexFrom]
        · exact fun rest h _ => hc h
        · exact hc

theorem lexFrom_open (h : t.contains '>' = false) (tag rest : List Char) :
    lexFrom (some tag) (t ++ '>' :: rest) =
      .tag (tag ++ t) :: lexFrom none rest := by
  rw [← Bool.not_eq_true, List.contains_iff_mem] at h
  induction t generalizing tag with
  | nil => rw [List.nil_append, lexFrom, List.append_nil]
  | cons c t ih =>
      rw [List.mem_cons, not_or] at h
      rw [List.cons_append, lexFrom, ih h.2, List.append_assoc]
      · rfl
      · exact fun hc => h.1 hc.symm

theorem lexFrom_tag (h : t.contains '>' = false)
    (hlt : (t.head? == some '<') = false) (rest : List Char) :
    lexFrom none ('<' :: t ++ '>' :: rest) = .tag t :: lexFrom none rest := by
  have hopen : lexFrom none ('<' :: (t ++ '>' :: rest)) =
      lexFrom (some []) (t ++ '>' :: rest) := by
    cases t with
    | nil => rfl
    | cons c t =>
        rw [List.cons_append, lexFrom]
        intro rest' h
        rw [(List.cons.inj h).1] at hlt
        simp at hlt
  exact hopen.trans (lexFrom_open h [] rest)

-- == stepping

theorem run_chars (h : q.param = none) (s : List Char)
    (tokens : List Token) :
    run q (s.map .chr ++ tokens) = run { q with
      text := q.text ++ s, outLen := q.outLen + s.length } tokens := by
  induction s generalizing q with
  | nil => rw [List.map_nil, List.nil_append, List.append_nil]; rfl
  | cons c s ih =>
      have hpush : q.push c = { q with
          text := q.text ++ [c], outLen := q.outLen + 1 } := by
        unfold State.push
        rw [h]
      rw [List.map_cons, List.cons_append, run_cons, State.step, hpush]
      refine (ih (q := { q with
        text := q.text ++ [c], outLen := q.outLen + 1 }) h).trans ?_
      rw [List.append_assoc, List.length_cons, Nat.add_assoc,
        Nat.add_comm 1 s.length]
      rfl

theorem run_param {buf : List Char} (h : q.param = some buf) (s : List Char)
    (tokens : List Token) :
    run q (s.map .chr ++ tokens) =
      run { q with param := some (buf ++ s) } tokens := by
  induction s generalizing q buf with
  | nil =>
      rw [List.map_nil, List.nil_append, List.append_nil, ← h]
  | cons c s ih =>
      have hpush : q.push c = { q with param := some (buf ++ [c]) } := by
        unfold State.push
        rw [h]
      rw [List.map_cons, List.cons_append, run_cons, State.step, hpush]
      refine (ih (q := { q with param := some (buf ++ [c]) }) rfl).trans ?_
      rw [List.append_assoc]
      rfl

-- == annotations

/-- An annotation that is read as it is written, and its part of a face. -/
structure Reads (ann : List Char × Option (List Char)) (face : Face) :
    Prop where
  opens : kind ann.1 = .opens ann.1
  closes : kind ('/' :: ann.1) = .closes ann.1
  notParam : ann.1 ≠ "param".toList
  ends : ann.1.contains '>' = false
  first : (ann.1.head? == some '<') = false
  gives : faceFor ann.1 ann.2 = .ok (some face)
  notDefault : face.isDefault = false

/-- The tokens in front of an annotated run. -/
def openTokens (ann : List Char × Option (List Char)) : List Token :=
  .tag ann.1 :: match ann.2 with
    | some value => .tag "param".toList :: (value.map .chr ++
        [.tag "/param".toList])
    | none => []

variable {ann : List Char × Option (List Char)}

theorem lexFrom_openAnnotation (h : Reads ann face) (rest : List Char) :
    lexFrom none ( openAnnotation ann ++ rest) =
      openTokens ann ++ lexFrom none rest := by
  have htag := lexFrom_tag h.ends h.first
  obtain ⟨tag, param⟩ := ann
  cases param with
  | none =>
      refine Eq.trans (congrArg (lexFrom none) ?_) (htag rest)
      simp [ openAnnotation]
  | some value =>
      have hopen := lexFrom_tag (t := "param".toList) rfl rfl
      have hclose := lexFrom_tag (t := "/param".toList) rfl rfl
      have hshape : openAnnotation (tag, some value) ++ rest =
          '<' :: tag ++ '>' :: ('<' :: "param".toList ++ '>' ::
            (escape value ++ ('<' :: "/param".toList ++ '>' :: rest))) := by
        simp [ openAnnotation]
      rw [hshape, htag, hopen, lexFrom_escape, hclose]
      simp [openTokens]

theorem lexFrom_closeAnnotation (h : Reads ann face) (rest : List Char) :
    lexFrom none ( closeAnnotation ann ++ rest) =
      .tag ('/' :: ann.1) :: lexFrom none rest := by
  have hends : ('/' :: ann.1).contains '>' = false :=
    (List.contains_cons ..).trans h.ends
  refine Eq.trans ?_ (lexFrom_tag hends rfl rest)
  unfold closeAnnotation
  rw [List.append_assoc, List.append_assoc]
  rfl

theorem run_open (h : Reads ann face) (hparam : q.param = none)
    (tokens : List Token) :
    run q (openTokens ann ++ tokens) = run { q with
      opens := ⟨ann.1, q.outLen, ann.2⟩ :: q.opens } tokens := by
  have hopen : q.step (.tag ann.1) = .ok { q with
      opens := ⟨ann.1, q.outLen, none⟩ :: q.opens } := by
    rw [step_tag, h.opens]
    exact congrArg Except.ok (if_neg h.notParam)
  obtain ⟨tag, param⟩ := ann
  cases param with
  | none =>
      refine (run_cons ..).trans ?_
      rw [hopen]
      rfl
  | some value =>
      have hvalue : ∀ (q : State) (o : Open) (opens : List Open)
          (buf : List Char), q.opens = o :: opens → q.param = some buf →
          q.step (.tag "/param".toList) = .ok { q with
            param := none
            opens := { o with param := some buf } :: opens } := by
        intro q o opens buf ho hbuf
        show q.closeTag "param".toList = _
        unfold State.closeTag
        rw [if_pos rfl, ho, hbuf]
        rfl
      have hshape : openTokens (tag, some value) ++ tokens =
          .tag tag :: .tag "param".toList ::
            (value.map .chr ++ .tag "/param".toList :: tokens) := by
        simp [openTokens]
      rw [hshape, run_cons, hopen]
      refine (run_cons ..).trans ?_
      refine (run_param (q := { q with
        opens := ⟨tag, q.outLen, none⟩ :: q.opens
        param := some [] }) rfl value _).trans ?_
      rw [run_cons, hvalue _ _ _ _ rfl rfl, hparam]
      rfl

theorem run_close (h : Reads ann face) {start : Nat} {opens : List Open}
    (hopens : q.opens = ⟨ann.1, start, ann.2⟩ :: opens)
    (tokens : List Token) :
    run q (.tag ('/' :: ann.1) :: tokens) = run { q with
      opens := opens
      props := q.props.addFace start q.outLen face } tokens := by
  have hclose : q.step (.tag ('/' :: ann.1)) = .ok { q with
      opens := opens
      props := q.props.addFace start q.outLen face } := by
    rw [step_tag, h.closes]
    dsimp only
    unfold State.closeTag
    rw [if_neg h.notParam, hopens, List.find?_cons_of_pos (by simp),
      List.eraseP_cons_of_pos (by simp)]
    dsimp only
    unfold State.close
    rw [h.gives]
    rfl
  rw [run_cons, hclose]
  rfl

variable {anns : List (List Char × Option (List Char))} {faces : List Face}

theorem lexFrom_annotations (h : List.Forall₂ Reads anns faces)
    (rest : List Char) :
    lexFrom none (anns.flatMap openAnnotation ++ rest) =
        anns.flatMap openTokens ++ lexFrom none rest ∧
      lexFrom none (anns.flatMap closeAnnotation ++ rest) =
        anns.map (fun ann => .tag ('/' :: ann.1)) ++ lexFrom none rest := by
  induction h with
  | nil => exact ⟨rfl, rfl⟩
  | cons hread _ ih =>
      constructor
      · rw [List.flatMap_cons, List.append_assoc,
          lexFrom_openAnnotation hread, ih.1, List.flatMap_cons,
          List.append_assoc]
      · rw [List.flatMap_cons, List.append_assoc,
          lexFrom_closeAnnotation hread, ih.2]
        rfl

theorem run_opens (h : List.Forall₂ Reads anns faces)
    (hparam : q.param = none) (tokens : List Token) :
    run q (anns.flatMap openTokens ++ tokens) = run { q with
      opens := (anns.map fun ann => ⟨ann.1, q.outLen, ann.2⟩).reverse ++
        q.opens } tokens := by
  induction h generalizing q with
  | nil => rfl
  | cons hread _ ih =>
      rw [List.flatMap_cons, List.append_assoc, run_open hread hparam]
      refine (ih (q := { q with
        opens := ⟨_, q.outLen, _⟩ :: q.opens }) hparam).trans ?_
      rw [List.map_cons, List.reverse_cons, List.append_assoc]
      rfl

theorem run_closes (h : List.Forall₂ Reads anns faces) (start : Nat)
    (opens : List Open) (hopens : q.opens =
      (anns.map fun ann => ⟨ann.1, start, ann.2⟩) ++ opens)
    (tokens : List Token) :
    run q (anns.map (fun ann => .tag ('/' :: ann.1)) ++ tokens) =
      run { q with
        opens := opens
        props := faces.foldl (fun props face =>
          props.addFace start q.outLen face) q.props } tokens := by
  induction h generalizing q with
  | nil =>
      obtain ⟨text, props, opens', param, outLen⟩ := q
      obtain rfl := hopens
      rfl
  | cons hread _ ih =>
      rw [List.map_cons, List.cons_append, run_close hread hopens]
      exact ih (q := { q with
        opens := _
        props := q.props.addFace start q.outLen _ }) rfl

-- == faces

/-- The parts of a face that its annotations give. -/
def parts (face : Face) : List Face :=
  (if face.bold then [{ bold := true }] else []) ++
  (if face.italic then [{ italic := true }] else []) ++
  (if face.underline then [{ underline := true }] else []) ++
  (face.fg.map fun rgb => ({ fg := some rgb } : Face)).toList ++
  (face.bg.map fun rgb => ({ bg := some rgb } : Face)).toList

theorem merge_parts (h : face.name = none) :
    (parts face).reverse.foldl Face.merge {} = face := by
  obtain ⟨name, bold, italic, underline, fg, bg⟩ := face
  obtain rfl : name = none := h
  cases bold <;> cases italic <;> cases underline <;> cases fg <;>
    cases bg <;> rfl

theorem reads_attr {tag : String} (h : tag = "bold" ∨ tag = "italic" ∨
    tag = "underline") (hface : attrOf tag.toList = some face)
    (hd : face.isDefault = false) : Reads (tag.toList, none) face := by
  have hfor : faceFor tag.toList none = .ok (some face) := by
    unfold faceFor
    rw [hface]
  rcases h with rfl | rfl | rfl
  · exact ⟨rfl, rfl, by decide, rfl, rfl, hfor, hd⟩
  · exact ⟨rfl, rfl, by decide, rfl, rfl, hfor, hd⟩
  · exact ⟨rfl, rfl, by decide, rfl, rfl, hfor, hd⟩

theorem hexDigit {d : Nat} (h : d < 16) :
    Increment.toDigit 16 (Nat.digitChar d) = some d ∧
      Nat.digitChar d ≠ '+' ∧ (Nat.digitChar d).utf8Size = 1 ∧
      isWhitespace (Nat.digitChar d) = false ∧ Nat.digitChar d ≠ '<' := by
  revert d
  decide

theorem hex2_digits (n : UInt8) : n.toNat / 16 < 16 ∧ n.toNat % 16 < 16 := by
  have := n.toNat_lt
  omega

theorem fromHex_hex2 (n : UInt8) : fromHex (hex2 n) = some n.toNat := by
  obtain ⟨hhigh, hlow⟩ := hex2_digits n
  obtain ⟨hdigit, hplus, -⟩ := hexDigit hhigh
  unfold fromHex hex2
  rw [stripPrefix_cons, if_neg (Ne.symm hplus)]
  dsimp only [Option.getD_none]
  rw [if_neg (List.cons_ne_nil _ _)]
  have hvalue : Increment.digitsValue 16 [Nat.digitChar (n.toNat / 16),
      Nat.digitChar (n.toNat % 16)] =
        some (n.toNat / 16 * 16 + n.toNat % 16) := by
    simp [Increment.digitsValue, hdigit, (hexDigit hlow).1]
  rw [hvalue]
  congr 1
  omega

theorem byteLen_hex2 (n : UInt8) : byteLen (hex2 n) = 2 := by
  obtain ⟨hhigh, hlow⟩ := hex2_digits n
  unfold hex2
  rw [byteLen_cons, byteLen_cons, (hexDigit hhigh).2.2.1,
    (hexDigit hlow).2.2.1, byteLen_nil]

theorem trim_of_visible (h : ∀ c ∈ s, isWhitespace c = false) :
    trim s = s := by
  refine trim_eq_self_iff.mpr ⟨?_, List.rdropWhile_eq_self_iff.mpr ?_⟩
  · cases s with
    | nil => rfl
    | cons c s =>
        exact List.dropWhile_cons_of_neg (by
          rw [h c List.mem_cons_self]
          nofun)
  · intro hne
    rw [h _ (List.getLast_mem hne)]
    nofun

/-- A color is read as it is written. -/
theorem parseColor_hex (rgb : Rgb) :
    parseColor (hex rgb) = .ok (some rgb) := by
  obtain ⟨red, green, blue⟩ := rgb
  have hspace : ∀ n, ∀ c ∈ hex2 n, isWhitespace c = false := by
    intro n c hc
    obtain ⟨hhigh, hlow⟩ := hex2_digits n
    unfold hex2 at hc
    rw [List.mem_cons, List.mem_singleton] at hc
    rcases hc with rfl | rfl
    · exact (hexDigit hhigh).2.2.2.1
    · exact (hexDigit hlow).2.2.2.1
  have htrim : trim (hex (red, green, blue)) = hex (red, green, blue) := by
    refine trim_of_visible fun c hc => ?_
    unfold hex at hc
    simp only [List.cons_append, List.mem_cons, List.mem_append] at hc
    rcases hc with rfl | (hc | hc) | hc
    · decide
    · exact hspace _ c hc
    · exact hspace _ c hc
    · exact hspace _ c hc
  have hstrip : stripPrefix (hex (red, green, blue)) ['#'] =
      some (hex2 red ++ hex2 green ++ hex2 blue) := by
    exact stripPrefix_append ['#'] _
  have hper : digitsPer (hex2 red ++ hex2 green ++ hex2 blue) = some 2 := by
    unfold digitsPer
    rw [byteLen_append, byteLen_append, byteLen_hex2, byteLen_hex2,
      byteLen_hex2]
    rfl
  have hchan : ∀ (i : Nat) (front rest : List Char) (n : UInt8),
      hex2 red ++ hex2 green ++ hex2 blue = front ++ hex2 n ++ rest →
      byteLen front = i * 2 →
      chan (hex2 red ++ hex2 green ++ hex2 blue) 2 i = .ok (some n) := by
    intro i front rest n hsplit hfront
    have hslice := byteSlice_append front (hex2 n) rest
    rw [hfront, byteLen_hex2, ← hsplit] at hslice
    unfold chan
    rw [hslice, ok_bind, fromHex_hex2]
    exact congrArg (fun v => Except.ok (some v)) UInt8.ofNat_toNat
  have hred := hchan 0 [] (hex2 green ++ hex2 blue) red
    (List.append_assoc ..) rfl
  have hgreen := hchan 1 (hex2 red) (hex2 blue) green rfl (byteLen_hex2 red)
  have hblue := hchan 2 (hex2 red ++ hex2 green) [] blue
    (List.append_nil _).symm (by
      rw [byteLen_append, byteLen_hex2, byteLen_hex2])
  unfold parseColor
  dsimp only
  rw [htrim, hstrip]
  dsimp only
  rw [hper]
  dsimp only
  rw [hred, ok_bind]
  dsimp only
  rw [hgreen, ok_bind]
  dsimp only
  rw [hblue]
  rfl

theorem reads_annotations (h : face.name = none) :
    List.Forall₂ Reads (annotations face) (parts face) := by
  have hcolor : ∀ (rgb : Rgb) (tag : String) (face : Face),
      tag = "x-color" ∧ face = { fg := some rgb } ∨
        tag = "x-bg-color" ∧ face = { bg := some rgb } →
      Reads (tag.toList, some (hex rgb)) face := by
    rintro rgb tag face (⟨rfl, rfl⟩ | ⟨rfl, rfl⟩)
    · refine ⟨rfl, rfl, (by decide : "x-color".toList ≠ "param".toList),
        rfl, rfl, ?_, rfl⟩
      show (parseColor (hex rgb)).bind _ = _
      rw [parseColor_hex]
      rfl
    · refine ⟨rfl, rfl, (by decide : "x-bg-color".toList ≠ "param".toList),
        rfl, rfl, ?_, rfl⟩
      show (parseColor (hex rgb)).bind _ = _
      rw [parseColor_hex]
      rfl
  obtain ⟨name, bold, italic, underline, fg, bg⟩ := face
  obtain rfl : name = none := h
  unfold annotations parts
  refine List.rel_append (List.rel_append (List.rel_append
    (List.rel_append ?_ ?_) ?_) ?_) ?_
  · cases bold with
    | false => exact .nil
    | true => exact .cons (reads_attr (.inl rfl) rfl rfl) .nil
  · cases italic with
    | false => exact .nil
    | true => exact .cons (reads_attr (.inr (.inl rfl)) rfl rfl) .nil
  · cases underline with
    | false => exact .nil
    | true => exact .cons (reads_attr (.inr (.inr rfl)) rfl rfl) .nil
  · cases fg with
    | none => exact .nil
    | some rgb => exact .cons (hcolor rgb _ _ (.inl ⟨rfl, rfl⟩)) .nil
  · cases bg with
    | none => exact .nil
    | some rgb => exact .cons (hcolor rgb _ _ (.inr ⟨rfl, rfl⟩)) .nil

-- == runs

/-- The chars from `start` to `stop`, which carried nothing, carry a face,
and all others what they did. -/
structure Painted (p p' : TextProps) (start stop : Nat) (face : Face) :
    Prop where
  canonical : Canonical {} p'.spans
  inside : ∀ pos, start ≤ pos → pos < stop →
    p'.propsAt pos = carried { face := face }
  outside : ∀ pos, ¬ (start ≤ pos ∧ pos < stop) →
    p'.propsAt pos = p.propsAt pos

theorem carried_getD (props : Props) : (carried props).getD {} = props := by
  unfold carried
  cases h : props.isEmpty with
  | false => rfl
  | true => exact (Props.isEmpty_iff.mp h).symm

theorem Painted.addFace {p p' : TextProps} {start stop : Nat} {base : Face}
    (h : Painted p p' start stop base) (hd : face.isDefault = false) :
    Painted p (p'.addFace start stop face) start stop (base.merge face) := by
  have hspec := step_spec h.canonical (.addFace start stop face)
  refine ⟨hspec.canonical, fun pos hstart hstop => ?_, fun pos hpos => ?_⟩
  · refine (hspec.inside pos ⟨hstart, hstop⟩).trans ?_
    rw [h.inside pos hstart hstop, carried_getD, Action.onProps, hd]
    rfl
  · exact (hspec.outside pos hpos).trans (h.outside pos hpos)

theorem Painted.addFaces {p p' : TextProps} {start stop : Nat} {base : Face}
    (h : Painted p p' start stop base)
    (hd : ∀ face ∈ faces, face.isDefault = false) :
    Painted p (faces.foldl (fun props face =>
      props.addFace start stop face) p') start stop
        (faces.foldl Face.merge base) := by
  induction faces generalizing p' base with
  | nil => exact h
  | cons face faces ih =>
      obtain ⟨hface, hfaces⟩ := List.forall_mem_cons.mp hd
      exact ih (h.addFace hface) hfaces

theorem reads_notDefault (h : List.Forall₂ Reads anns faces) :
    ∀ face ∈ faces, face.isDefault = false := by
  induction h with
  | nil => exact nofun
  | cons hread _ ih => exact List.forall_mem_cons.mpr ⟨hread.notDefault, ih⟩

/-- A run is written and read back. -/
theorem run_annotated (hname : face.name = none) (chars : List Char)
    (hparam : q.param = none) (hopens : q.opens = [])
    (hp : Canonical {} q.props.spans)
    (hblank : ∀ pos, q.outLen ≤ pos → q.props.propsAt pos = none)
    (tokens : List Token) :
    ∃ props, Painted q.props props q.outLen (q.outLen + chars.length) face ∧
      run q ((annotations face).flatMap openTokens ++ (chars.map .chr ++
        ((annotations face).reverse.map (fun ann => .tag ('/' :: ann.1)) ++
          tokens))) = run { q with
        text := q.text ++ chars
        outLen := q.outLen + chars.length
        props := props } tokens := by
  have hreads := reads_annotations hname
  refine ⟨(parts face).reverse.foldl (fun props face => props.addFace
    q.outLen (q.outLen + chars.length) face) q.props, ?_, ?_⟩
  · have hbase : Painted q.props q.props q.outLen
        (q.outLen + chars.length) {} :=
      ⟨hp, fun pos hstart _ => hblank pos hstart, fun _ _ => rfl⟩
    have hd : ∀ part ∈ (parts face).reverse, part.isDefault = false :=
      fun part hpart =>
        reads_notDefault hreads part (List.mem_reverse.mp hpart)
    have hpainted := hbase.addFaces hd
    rwa [merge_parts hname] at hpainted
  · rw [run_opens hreads hparam]
    refine (run_chars (q := { q with
      opens := ((annotations face).map fun ann =>
        ⟨ann.1, q.outLen, ann.2⟩).reverse ++ q.opens }) hparam chars
          _).trans ?_
    have hreversed := List.rel_reverse hreads
    refine (run_closes hreversed q.outLen [] ?_ tokens).trans ?_
    · dsimp only
      rw [hopens, List.map_reverse]
    · rw [← hopens]

/-- A run that the format can carry: it has a face without a name, and no
other property. -/
structure Carries (r : Span) : Prop where
  name : r.value.face.name = none
  only : r.value = { face := r.value.face }

theorem carried_face {r : Span} (h : Carries r) (hne : r.value ≠ {}) :
    carried { face := r.value.face } = some r.value := by
  rw [← h.only]
  unfold carried
  rw [if_neg fun hempty => hne (Props.isEmpty_iff.mp hempty)]

theorem run_nil (h : q.opens = []) : run q [] = .ok q := by
  unfold run
  rw [List.foldlM_nil, pure_bind, h]
  rfl

/-- What stands between two places follows what stands in front. -/
theorem take_append_drop_take {start stop : Nat} (h : start ≤ stop)
    (s : List Char) : s.take start ++ (s.take stop).drop start =
      s.take stop := by
  have htake : s.take start = (s.take stop).take start := by
    rw [List.take_take, Nat.min_eq_left h]
  rw [htake, List.take_append_drop]

/-- The loop over the runs, read back. -/
theorem run_encodeLoop {chars : List Char} {pos : Nat} {runs : List Span}
    (hc : Canonical {} runs) (hstart : ∀ r ∈ runs, pos ≤ r.start)
    (hstop : ∀ r ∈ runs, r.stop ≤ chars.length)
    (hcarries : ∀ r ∈ runs, Carries r) (hpos : pos ≤ chars.length)
    (htext : q.text = chars.take pos) (hlen : q.outLen = pos)
    (hparam : q.param = none) (hopens : q.opens = [])
    (hp : Canonical {} q.props.spans)
    (hblank : ∀ x, pos ≤ x → q.props.propsAt x = none) :
    ∃ props : TextProps, Canonical {} props.spans ∧
      (∀ x, props.propsAt x = if x < pos then q.props.propsAt x
        else (valuesAt runs x).head?) ∧
      run q (lexFrom none (encodeLoop chars pos runs)) = .ok { q with
        text := chars, outLen := chars.length, props := props } := by
  induction runs generalizing q pos with
  | nil =>
      refine ⟨q.props, hp, fun x => ?_, ?_⟩
      · split
        · rfl
        · next hx => exact hblank x (Nat.not_lt.mp hx)
      · have hlex := lexFrom_escape (chars.drop pos) []
        rw [List.append_nil] at hlex
        rw [encodeLoop, hlex, run_chars hparam]
        refine (run_nil (q := { q with
          text := q.text ++ chars.drop pos
          outLen := q.outLen + (chars.drop pos).length }) hopens).trans ?_
        rw [htext, hlen, List.take_append_drop, List.length_drop,
          Nat.add_sub_cancel' hpos]
  | cons r runs ih =>
      have hfilled := hc.head_filled
      have hr := hstart r List.mem_cons_self
      have hr' := hstop r List.mem_cons_self
      have hlater := (List.pairwise_cons.mp hc.apart).1
      have hcarry := hcarries r List.mem_cons_self
      have hreads := reads_annotations hcarry.name
      have hfront : q.text ++ (chars.take r.start).drop pos =
          chars.take r.start := by
        rw [htext, take_append_drop_take hr]
      have hfrontlen : q.outLen + ((chars.take r.start).drop pos).length =
          r.start := by
        rw [hlen, List.length_drop, List.length_take]
        omega
      have hmiddlelen : ((chars.take r.stop).drop r.start).length =
          r.stop - r.start := by
        rw [List.length_drop, List.length_take]
        omega
      obtain ⟨props, hpainted, hrun⟩ := run_annotated
        (q := { q with text := chars.take r.start, outLen := r.start })
        hcarry.name ((chars.take r.stop).drop r.start) hparam hopens
        hp (fun x hx => hblank x (Nat.le_trans hr hx))
        (lexFrom none (encodeLoop chars r.stop runs))
      dsimp only at hpainted hrun
      rw [hmiddlelen, Nat.add_sub_cancel' hfilled.le] at hpainted hrun
      rw [take_append_drop_take hfilled.le] at hrun
      have hblank' : ∀ x, r.stop ≤ x → props.propsAt x = none := by
        intro x hx
        rw [hpainted.outside x fun hin => Nat.not_lt.mpr hx hin.2]
        exact hblank x (by omega)
      obtain ⟨props', hcan, hprops, hok⟩ := ih
        (q := { q with
          text := chars.take r.stop, outLen := r.stop, props := props })
        hc.tail hlater (List.forall_mem_cons.mp hstop).2
        (List.forall_mem_cons.mp hcarries).2 hr' rfl rfl hparam hopens
        hpainted.canonical hblank'
      refine ⟨props', hcan, fun x => ?_, ?_⟩
      · rw [hprops, valuesAt_cons]
        by_cases hx : x < pos
        · rw [if_pos hx, if_pos (by omega)]
          exact hpainted.outside x fun hin => by omega
        · rw [if_neg hx]
          by_cases hx' : x < r.stop
          · rw [if_pos hx', hc.apart.valuesAt_eq_nil hx']
            by_cases hin : r.start ≤ x
            · rw [if_pos ⟨hin, hx'⟩, hpainted.inside x hin hx',
                carried_face hcarry (hc.notBlank r List.mem_cons_self)]
              rfl
            · rw [if_neg fun hcover => hin hcover.1,
                hpainted.outside x fun h => hin h.1]
              exact hblank x (Nat.not_lt.mp hx)
          · rw [if_neg hx', if_neg fun hcover => hx' hcover.2]
            rfl
      · have hloop : encodeLoop chars pos (r :: runs) =
            escape ((chars.take r.start).drop pos) ++
              ((annotations r.value.face).flatMap openAnnotation ++
                (escape ((chars.take r.stop).drop r.start) ++
                  ((annotations r.value.face).reverse.flatMap
                    closeAnnotation ++ encodeLoop chars r.stop runs))) := by
          rw [encodeLoop]
          dsimp only
          rw [Nat.min_eq_left hr', Nat.min_eq_left (hfilled.le.trans hr'),
            if_neg (Nat.not_le.mpr hfilled)]
          simp only [List.append_assoc]
        rw [hloop, lexFrom_escape, (lexFrom_annotations hreads _).1,
          lexFrom_escape, (lexFrom_annotations (List.rel_reverse hreads) _).2,
          run_chars hparam, hfront, hfrontlen, hrun, hok]

/-- A text with canonical runs that carry faces without names comes back from
the enriched file as it was. -/
theorem encode_law (text : List Char) (props : TextProps)
    (hc : Canonical {} props.spans)
    (hstop : ∀ r ∈ props.spans, r.stop ≤ text.length)
    (hcarries : ∀ r ∈ props.spans, Carries r) :
    decode (encode text props) = .ok ⟨text, props⟩ := by
  have hfilter : (props.spans.filter fun s => !s.value.face.isDefault) =
      props.spans := by
    rw [List.filter_eq_self]
    intro r hr
    rw [Bool.not_eq_true', Bool.eq_false_iff]
    intro hd
    refine hc.notBlank r hr ?_
    rw [(hcarries r hr).only, of_decide_eq_true hd]
  have hsort : props.spans.insertionSort (fun a b => a.start ≤ b.start) =
      props.spans := by
    refine List.Pairwise.insertionSort_eq (hc.apart.imp_of_mem ?_)
    intro a b ha _ hab
    exact (hc.filled a ha).le.trans hab
  obtain ⟨props', hcan, hprops, hrun⟩ := run_encodeLoop (q := {}) hc
    (fun _ _ => Nat.zero_le _) hstop hcarries (Nat.zero_le _) rfl rfl rfl rfl
    Canonical.nil fun _ _ => rfl
  have hsame : props' = props := by
    have hspans : props'.spans = props.spans := by
      refine hcan.ext hc fun x => ?_
      have hlen := hc.apart.scattered x
      rw [valuesAt_eq hcan, hprops, if_neg (Nat.not_lt_zero x)]
      cases h : valuesAt props.spans x with
      | nil => rfl
      | cons v vs =>
          rw [h] at hlen
          cases vs with
          | nil => rfl
          | cons w vs => exact absurd hlen (by simp)
    cases props'
    cases props
    exact congrArg TextProps.mk hspans
  have hdecode : ∀ src, decode src =
      (run {} (lex (bodyOf src))).bind fun q => .ok ⟨q.text, q.props⟩ :=
    fun _ => (bind_assoc ..).symm
  unfold encode
  dsimp only
  rw [hfilter, hsort, hdecode, bodyOf_header, lex, hrun, hsame]
  rfl

/-- A text with two runs. -/
theorem encode_law_runs :
    decode (encode "a<b".toList ⟨[⟨0, 1, { face := { bold := true } }⟩,
      ⟨1, 3, { face := { fg := some (255, 0, 16) } }⟩]⟩) =
      .ok ⟨"a<b".toList, ⟨[⟨0, 1, { face := { bold := true } }⟩,
        ⟨1, 3, { face := { fg := some (255, 0, 16) } }⟩]⟩⟩ := by
  refine encode_law _ _ ⟨by decide, by decide, by decide, by decide⟩
    (by decide) fun r hr => ?_
  rcases List.mem_pair.mp hr with rfl | rfl
  · exact ⟨rfl, rfl⟩
  · exact ⟨rfl, rfl⟩

end Zmax.Enriched
