/-
zmax-view/src/document.rs: writing a document's text in its encoding,
`to_writer`.

The encoders of encoding_rs are a parameter: what one call makes of a piece
of text, given its state, the room in the output buffer and whether the text
ends there. The buffer is the bytes written to it so far, and the writer, of
which no write fails, the bytes that reached it.

What `to_writer` writes.

However the text is cut into chunks, and wherever the buffer is full, the
encoder is given every char once and in order (`writeChunk_spec`), and all it
makes of them reaches the writer. But it is never told that the text ends:
the empty chunk that is to tell it is answered before it is asked.
-/
import Mathlib.Data.List.Basic
import Zmax.Basic

namespace Zmax.ToWriter

def BUF_SIZE : Nat := 8192

/-- `encoding::Encoding`, as far as `to_writer` tells them apart. -/
inductive Encoding where
  | utf8
  | utf16be
  | utf16le
  | other
  deriving DecidableEq, Repr

inductive CoderResult where
  | inputEmpty
  | outputFull
  deriving DecidableEq, Repr

/-- The result of a call, the bytes it read, what it wrote, and the state
then. -/
structure Coded (σ : Type) where
  result : CoderResult
  read : Nat
  written : List UInt8
  state : σ
  deriving DecidableEq, Repr

/-- An encoder of encoding_rs. -/
structure EncodingRs (σ : Type) where
  /-- `new_encoder` -/
  start : σ
  /-- `encode_from_utf8`: text, room in the buffer, and the `last` flag. -/
  encode : σ → List Char → Nat → Bool → Coded σ

/-- `str::len` -/
def strLen (s : List Char) : Nat :=
  match s with
  | [] => 0
  | c :: s => c.utf8Size + strLen s

/-- `&s[n..]`, which panics inside a char. -/
def dropBytes : List Char → Nat → Result (List Char)
  | s, 0 => .ok s
  | [], _ + 1 => .error .outOfBounds
  | c :: s, n + 1 =>
      if c.utf8Size ≤ n + 1 then dropBytes s (n + 1 - c.utf8Size)
      else .error .outOfBounds

-- == UTF-16

/-- `char::encode_utf16` -/
def encodeUtf16 (c : Char) : List UInt16 :=
  if c.toNat < 0x10000 then [UInt16.ofNat c.toNat]
  else
    [UInt16.ofNat (0xd800 + (c.toNat - 0x10000) / 0x400),
      UInt16.ofNat (0xdc00 + (c.toNat - 0x10000) % 0x400)]

/-- `u16::to_be_bytes` -/
def toBeBytes (u : UInt16) : List UInt8 :=
  [UInt8.ofNat (u.toNat / 256), UInt8.ofNat (u.toNat % 256)]

/-- `u16::to_le_bytes` -/
def toLeBytes (u : UInt16) : List UInt8 :=
  [UInt8.ofNat (u.toNat % 256), UInt8.ofNat (u.toNat / 256)]

/-- The bytes of a char. -/
def utf16Bytes (convert : UInt16 → List UInt8) (c : Char) : List UInt8 :=
  (encodeUtf16 c).flatMap convert

/-- The loop of `write_to_buf`. -/
def writeToBuf {σ : Type} (state : σ) (convert : UInt16 → List UInt8)
    (dst : Nat) : List Char → Nat → List UInt8 → Coded σ
  | [], indice, out => ⟨.inputEmpty, indice, out, state⟩
  | c :: s, indice, out =>
      let bytes := utf16Bytes convert c
      if dst ≤ out.length + bytes.length then
        ⟨.outputFull, indice, out, state⟩
      else writeToBuf state convert dst s (indice + c.utf8Size) (out ++ bytes)

-- == the encoder

inductive Encoder (σ : Type) where
  | utf16Be
  | utf16Le
  | encodingRs (state : σ)
  deriving DecidableEq, Repr

variable {σ : Type} (rs : EncodingRs σ)

/-- `Encoder::from_encoding` -/
def Encoder.fromEncoding : Encoding → Encoder σ
  | .utf16be => .utf16Be
  | .utf16le => .utf16Le
  | _ => .encodingRs rs.start

/-- `Encoder::encode_from_utf8` -/
def Encoder.encodeFromUtf8 (encoder : Encoder σ) (src : List Char) (dst : Nat)
    (isEmpty : Bool) : Coded (Encoder σ) :=
  if src = [] then ⟨.inputEmpty, 0, [], encoder⟩
  else
    match encoder with
    | .utf16Be => writeToBuf .utf16Be toBeBytes dst src 0 []
    | .utf16Le => writeToBuf .utf16Le toLeBytes dst src 0 []
    | .encodingRs state =>
        let coded := rs.encode state src dst isEmpty
        ⟨coded.result, coded.read, coded.written, .encodingRs coded.state⟩

/-- `apply_bom` -/
def applyBom : Encoding → List UInt8
  | .utf8 => [0xef, 0xbb, 0xbf]
  | .utf16be => [0xfe, 0xff]
  | .utf16le => [0xff, 0xfe]
  | .other => []

/-- The inner loop of `to_writer`: a chunk from some byte on. -/
def writeChunk (chunk : List Char) (isEmpty : Bool) :
    Nat → Encoder σ → Nat → List UInt8 → List UInt8 →
      Result (Encoder σ × List UInt8 × List UInt8)
  | 0, _, _, _, _ => .error .diverges
  | fuel + 1, encoder, totalRead, buf, writer => do
      let src ← dropBytes chunk totalRead
      let coded := encoder.encodeFromUtf8 rs src (BUF_SIZE - buf.length) isEmpty
      let totalRead := totalRead + coded.read
      let buf := buf ++ coded.written
      match coded.result with
      | .inputEmpty =>
          assert (strLen chunk = totalRead)
          assert (buf.length ≤ BUF_SIZE)
          return (coded.state, buf, writer)
      | .outputFull =>
          assert (totalRead < strLen chunk)
          writeChunk chunk isEmpty fuel coded.state totalRead []
            (writer ++ buf)

/-- The outer loop of `to_writer`, which ends with the empty chunk. -/
def writeChunks : Encoder σ → List UInt8 → List UInt8 → List (List Char) →
    Result (List UInt8)
  | _, _, writer, [] => .ok writer
  | encoder, buf, writer, chunk :: chunks => do
      let isEmpty := chunk.isEmpty
      let (encoder, buf, writer) ←
        writeChunk rs chunk isEmpty (2 * chunk.length + 2) encoder 0 buf writer
      if isEmpty then return writer ++ buf
      else writeChunks encoder buf writer chunks

/-- `to_writer` -/
def toWriter (encoding : Encoding) (hasBom : Bool) (chunks : List (List Char)) :
    Result (List UInt8) :=
  writeChunks rs (Encoder.fromEncoding rs encoding)
    (if hasBom then applyBom encoding else []) []
    (chunks.filter (· ≠ []) ++ [[]])

attribute [grind =] strLen dropBytes writeToBuf writeChunk writeChunks

end Zmax.ToWriter

namespace Zmax.ToWriter

-- == the spec

/-- The bytes of a text, and the encoder's state behind it. -/
def emitAll {τ : Type} (emit : τ → Char → List UInt8 × τ) :
    τ → List Char → List UInt8 × τ
  | state, [] => ([], state)
  | state, c :: s =>
      ((emit state c).1 ++ (emitAll emit (emit state c).2 s).1,
        (emitAll emit (emit state c).2 s).2)

/-- A call tells truly what it has read and written: the bytes of the chars
it has passed. It says that the buffer is full only before a char, and has
passed one by then if all the buffer was free. -/
structure Reports {τ : Type} (emit : τ → Char → List UInt8 × τ) (state : τ)
    (src : List Char) (dst : Nat) (coded : Coded τ) : Prop where
  passed : ∃ pre post, src = pre ++ post ∧ coded.read = strLen pre ∧
    coded.written = (emitAll emit state pre).1 ∧
    coded.state = (emitAll emit state pre).2 ∧
    (coded.result = .inputEmpty → post = []) ∧
    (coded.result = .outputFull → post ≠ []) ∧
    (coded.result = .outputFull → dst = BUF_SIZE → pre ≠ [])
  written : coded.written.length ≤ dst

/-- An encoder that always does. -/
def Faithful {τ : Type} (emit : τ → Char → List UInt8 × τ)
    (encode : τ → List Char → Nat → Bool → Coded τ) : Prop :=
  ∀ state src dst, src ≠ [] →
    Reports emit state src dst (encode state src dst false)

variable {σ : Type}

/-- What an encoder writes at the end of the text. -/
def EncodingRs.flush (rs : EncodingRs σ) (state : σ) : List UInt8 :=
  (rs.encode state [] BUF_SIZE true).written

/-- The chars of a text in the encoding. -/
def emitted (rs : EncodingRs σ) (emit : σ → Char → List UInt8 × σ)
    (text : List Char) : Encoding → List UInt8
  | .utf16be => text.flatMap (utf16Bytes toBeBytes)
  | .utf16le => text.flatMap (utf16Bytes toLeBytes)
  | _ => (emitAll emit rs.start text).1

/-- A text in the encoding, with what is to stand at its end. -/
def encoded (rs : EncodingRs σ) (emit : σ → Char → List UInt8 × σ)
    (text : List Char) (encoding : Encoding) : List UInt8 :=
  emitted rs emit text encoding ++
    if encoding = .utf16be ∨ encoding = .utf16le then []
    else rs.flush (emitAll emit rs.start text).2

attribute [grind =] emitAll

theorem emitAll_append {τ : Type} (emit : τ → Char → List UInt8 × τ)
    (state : τ) (s t : List Char) :
    emitAll emit state (s ++ t) =
      ((emitAll emit state s).1 ++ (emitAll emit (emitAll emit state s).2 t).1,
        (emitAll emit (emitAll emit state s).2 t).2) := by
  induction s generalizing state with
  | nil => rfl
  | cons c s ih =>
      rw [List.cons_append, emitAll, ih, emitAll]
      simp only [List.append_assoc]

-- == bytes

theorem strLen_append (s t : List Char) :
    strLen (s ++ t) = strLen s + strLen t := by
  induction s with
  | nil => simp [strLen]
  | cons c s ih =>
      rw [List.cons_append, strLen, strLen, ih]
      omega

theorem strLen_pos {s : List Char} (h : s ≠ []) : 0 < strLen s := by
  cases s with
  | nil => exact absurd rfl h
  | cons c s =>
      have := c.utf8Size_pos
      rw [strLen]
      omega

theorem dropBytes_strLen (s t : List Char) :
    dropBytes (s ++ t) (strLen s) = .ok t := by
  induction s with
  | nil =>
      cases t <;> rfl
  | cons c s ih =>
      have hpos := c.utf8Size_pos
      rw [List.cons_append, strLen]
      obtain ⟨n, hn⟩ : ∃ n, c.utf8Size + strLen s = n + 1 :=
        ⟨c.utf8Size + strLen s - 1, by omega⟩
      rw [hn, dropBytes, if_pos (by omega), ← hn, Nat.add_sub_cancel_left, ih]

-- == encoders

/-- The chars' bytes, whichever encoder has them. -/
def emitEncoder (emit : σ → Char → List UInt8 × σ) :
    Encoder σ → Char → List UInt8 × Encoder σ
  | .utf16Be, c => (utf16Bytes toBeBytes c, .utf16Be)
  | .utf16Le, c => (utf16Bytes toLeBytes c, .utf16Le)
  | .encodingRs state, c => ((emit state c).1, .encodingRs (emit state c).2)

theorem emitAll_encodingRs (emit : σ → Char → List UInt8 × σ) (state : σ)
    (text : List Char) :
    emitAll (emitEncoder emit) (.encodingRs state) text =
      ((emitAll emit state text).1, .encodingRs (emitAll emit state text).2) := by
  induction text generalizing state with
  | nil => rfl
  | cons c text ih =>
      rw [emitAll, emitEncoder, ih]
      rfl

/-- An encoder without a state. -/
theorem emitAll_const {τ : Type} {emit : τ → Char → List UInt8 × τ}
    {state : τ} {bytes : Char → List UInt8}
    (h : ∀ c, emit state c = (bytes c, state)) (text : List Char) :
    emitAll emit state text = (text.flatMap bytes, state) := by
  induction text with
  | nil => rfl
  | cons c text ih =>
      rw [emitAll, h, ih]
      rfl

theorem utf16Bytes_length {convert : UInt16 → List UInt8}
    (h : ∀ u, (convert u).length = 2) (c : Char) :
    (utf16Bytes convert c).length ≤ 4 := by
  unfold utf16Bytes encodeUtf16
  split
  · simp [h]
  · simp [h]

/-- The UTF-16 loop, once so much of the text is done. -/
theorem writeToBuf_reports {τ : Type} {emit : τ → Char → List UInt8 × τ}
    {state : τ} {convert : UInt16 → List UInt8}
    (hconvert : ∀ u, (convert u).length = 2)
    (hemit : ∀ c, emit state c = (utf16Bytes convert c, state)) {dst : Nat}
    {src pre s : List Char} (hsrc : src = pre ++ s)
    (hfits : (pre.flatMap (utf16Bytes convert)).length ≤ dst) :
    Reports emit state src dst (writeToBuf state convert dst s (strLen pre)
      (pre.flatMap (utf16Bytes convert))) := by
  induction s generalizing pre with
  | nil =>
      rw [writeToBuf]
      refine ⟨⟨pre, [], hsrc, rfl, ?_, ?_, fun _ => rfl, by simp, by simp⟩, hfits⟩
      · rw [emitAll_const hemit]
      · rw [emitAll_const hemit]
  | cons c s ih =>
      rw [writeToBuf]
      split
      · rename_i hfull
        refine ⟨⟨pre, c :: s, hsrc, rfl, ?_, ?_, by simp, by simp, ?_⟩, hfits⟩
        · rw [emitAll_const hemit]
        · rw [emitAll_const hemit]
        · rintro - rfl rfl
          have := utf16Bytes_length hconvert c
          simp only [List.flatMap_nil, List.length_nil, BUF_SIZE] at hfull
          omega
      · rename_i hfull
        have hnext := @ih (pre ++ [c]) (by rw [hsrc]; simp) (by
          rw [List.flatMap_append, List.length_append]
          simp only [List.flatMap_cons, List.flatMap_nil, List.append_nil]
          omega)
        rw [strLen_append, List.flatMap_append] at hnext
        simpa [strLen] using hnext

variable {emit : σ → Char → List UInt8 × σ} {rs : EncodingRs σ}

theorem encoder_faithful (h : Faithful emit rs.encode) :
    Faithful (emitEncoder emit) (Encoder.encodeFromUtf8 rs) := by
  intro encoder src dst hne
  unfold Encoder.encodeFromUtf8
  rw [if_neg hne]
  cases encoder with
  | utf16Be =>
      exact @writeToBuf_reports _ _ _ _ (fun _ => rfl) (fun _ => rfl) _ _ []
        src rfl (Nat.zero_le _)
  | utf16Le =>
      exact @writeToBuf_reports _ _ _ _ (fun _ => rfl) (fun _ => rfl) _ _ []
        src rfl (Nat.zero_le _)
  | encodingRs state =>
      obtain ⟨⟨pre, post, hsrc, hread, hwritten, hstate, hrest⟩, hfits⟩ :=
        h state src dst hne
      refine ⟨⟨pre, post, hsrc, hread, ?_, ?_, hrest⟩, hfits⟩
      · rw [emitAll_encodingRs]
        exact hwritten
      · rw [emitAll_encodingRs, ← hstate]

-- == loops

/-- What is left of a chunk goes through the buffer. -/
theorem writeChunk_spec {rs : EncodingRs σ} {emit : σ → Char → List UInt8 × σ}
    (hrs : Faithful emit rs.encode) {chunk done rest : List Char}
    (hchunk : chunk = done ++ rest) (hrest : rest ≠ []) {fuel : Nat}
    {encoder : Encoder σ} {buf writer : List UInt8}
    (hbuf : buf.length ≤ BUF_SIZE)
    (hfuel : rest.length + (if buf = [] then 0 else 1) < fuel) :
    ∃ buf' writer',
      writeChunk rs chunk false fuel encoder (strLen done) buf writer =
        .ok ((emitAll (emitEncoder emit) encoder rest).2, buf', writer') ∧
      writer' ++ buf' =
        writer ++ buf ++ (emitAll (emitEncoder emit) encoder rest).1 ∧
      buf'.length ≤ BUF_SIZE := by
  induction fuel generalizing done rest encoder buf writer with
  | zero => omega
  | succ fuel ih =>
      obtain ⟨⟨pre, post, rfl, hread, hwritten, hstate, hempty, hfull, hmore⟩,
        hfits⟩ := encoder_faithful hrs encoder rest (BUF_SIZE - buf.length) hrest
      unfold writeChunk
      rw [hchunk, dropBytes_strLen, ok_bind]
      simp only
      rw [hread, hwritten, hstate]
      rw [hwritten] at hfits
      cases hresult : (encoder.encodeFromUtf8 rs (pre ++ post)
          (BUF_SIZE - buf.length) false).result with
      | inputEmpty =>
          obtain rfl := hempty hresult
          rw [List.append_nil] at *
          have hlen : (buf ++ (emitAll (emitEncoder emit) encoder pre).1).length
              ≤ BUF_SIZE := by
            rw [List.length_append]
            omega
          simp only [strLen_append, decide_true, assert_true, ok_bind,
            decide_eq_true hlen]
          exact ⟨_, _, rfl, by rw [List.append_assoc], hlen⟩
      | outputFull =>
          have hpost := hfull hresult
          have hpos := strLen_pos hpost
          have hassert : decide (strLen done + strLen pre <
              strLen (done ++ (pre ++ post))) = true := by
            rw [decide_eq_true_eq, strLen_append, strLen_append]
            omega
          simp only [hassert, assert_true, ok_bind]
          obtain ⟨buf', writer', hloop, hout, hlen⟩ := @ih (done ++ pre) post
            (by rw [hchunk, List.append_assoc]) hpost
            (emitAll (emitEncoder emit) encoder pre).2 []
            (writer ++ (buf ++ (emitAll (emitEncoder emit) encoder pre).1))
            (Nat.zero_le _) (by
              rw [if_pos rfl]
              rw [List.length_append] at hfuel
              split at hfuel
              · rename_i hnil
                subst hnil
                have := List.length_pos_iff.mpr (hmore hresult rfl)
                omega
              · omega)
          rw [hchunk, strLen_append] at hloop
          rw [emitAll_append]
          exact ⟨buf', writer', hloop, by rw [hout]; simp, hlen⟩

theorem writeChunks_spec (hrs : Faithful emit rs.encode)
    {chunks : List (List Char)} (hchunks : ∀ chunk ∈ chunks, chunk ≠ [])
    {encoder : Encoder σ} {buf writer : List UInt8}
    (hbuf : buf.length ≤ BUF_SIZE) :
    writeChunks rs encoder buf writer (chunks ++ [[]]) =
      .ok (writer ++ buf ++
        (emitAll (emitEncoder emit) encoder chunks.flatten).1) := by
  induction chunks generalizing encoder buf writer with
  | nil =>
      rw [List.nil_append, writeChunks]
      have hlast : writeChunk rs [] true 2 encoder 0 buf writer =
          .ok (encoder, buf, writer) := by
        unfold writeChunk Encoder.encodeFromUtf8
        simp [dropBytes, strLen, hbuf]
      simp only [List.isEmpty_nil, List.length_nil, Nat.mul_zero, Nat.zero_add,
        hlast, ok_bind, if_true, List.flatten_nil, emitAll, List.append_nil]
      rfl
  | cons chunk chunks ih =>
      obtain ⟨hne, hchunks⟩ := List.forall_mem_cons.mp hchunks
      obtain ⟨buf', writer', hchunk, hout, hlen⟩ := @writeChunk_spec σ rs emit hrs
        chunk [] chunk rfl hne (2 * chunk.length + 2) encoder buf writer hbuf
        (by split <;> omega)
      have hempty : chunk.isEmpty = false := by simpa using hne
      rw [strLen] at hchunk
      rw [List.cons_append, writeChunks]
      simp only [hempty, hchunk, ok_bind, Bool.false_eq_true, if_false]
      rw [ih hchunks hlen, hout, List.flatten_cons, emitAll_append]
      simp only [List.append_assoc]

/-- Every char is written, and nothing else. -/
theorem toWriter_eq (hrs : Faithful emit rs.encode) (encoding : Encoding)
    (hasBom : Bool) (chunks : List (List Char)) :
    toWriter rs encoding hasBom chunks =
      .ok ((if hasBom then applyBom encoding else []) ++
        (emitAll (emitEncoder emit) (Encoder.fromEncoding rs encoding)
          chunks.flatten).1) := by
  have hflat : (chunks.filter (· ≠ [])).flatten = chunks.flatten := by
    induction chunks with
    | nil => rfl
    | cons chunk chunks ih =>
        rw [List.filter_cons]
        split
        · rw [List.flatten_cons, ih, List.flatten_cons]
        · rename_i hnil
          have hnil : chunk = [] := by simpa using hnil
          rw [ih, List.flatten_cons, hnil, List.nil_append]
  unfold toWriter
  rw [writeChunks_spec hrs (by simp), hflat, List.nil_append]
  split
  · cases encoding <;> decide
  · exact Nat.zero_le _

theorem emitAll_encoder (rs : EncodingRs σ) (emit : σ → Char → List UInt8 × σ)
    (encoding : Encoding) (text : List Char) :
    (emitAll (emitEncoder emit) (Encoder.fromEncoding rs encoding) text).1 =
      emitted rs emit text encoding := by
  cases encoding with
  | utf8 => exact congrArg Prod.fst (emitAll_encodingRs emit rs.start text)
  | other => exact congrArg Prod.fst (emitAll_encodingRs emit rs.start text)
  | utf16be => exact congrArg Prod.fst (emitAll_const (fun _ => rfl) text)
  | utf16le => exact congrArg Prod.fst (emitAll_const (fun _ => rfl) text)

/-- The loop of an encoder that writes chars as long as they fit. -/
def greedyLoop (emit : σ → Char → List UInt8 × σ) (finish : σ → List UInt8)
    (dst : Nat) (last : Bool) : List Char → Nat → List UInt8 → σ → Coded σ
  | [], read, out, state =>
      if last then
        if dst < out.length + (finish state).length then
          ⟨.outputFull, read, out, state⟩
        else ⟨.inputEmpty, read, out ++ finish state, state⟩
      else ⟨.inputEmpty, read, out, state⟩
  | c :: s, read, out, state =>
      if dst < out.length + (emit state c).1.length then
        ⟨.outputFull, read, out, state⟩
      else
        greedyLoop emit finish dst last s (read + c.utf8Size)
          (out ++ (emit state c).1) (emit state c).2

def greedy (start : σ) (emit : σ → Char → List UInt8 × σ)
    (finish : σ → List UInt8) : EncodingRs σ :=
  ⟨start, fun state src dst last =>
    greedyLoop emit finish dst last src 0 [] state⟩

attribute [grind =] greedyLoop

theorem greedyLoop_reports {emit : σ → Char → List UInt8 × σ}
    {finish : σ → List UInt8} {start : σ}
    (hemit : ∀ state c, (emit state c).1.length ≤ BUF_SIZE) {dst : Nat}
    {src pre s : List Char} (hsrc : src = pre ++ s)
    (hfits : (emitAll emit start pre).1.length ≤ dst) :
    Reports emit start src dst (greedyLoop emit finish dst false s (strLen pre)
      (emitAll emit start pre).1 (emitAll emit start pre).2) := by
  induction s generalizing pre with
  | nil =>
      rw [greedyLoop]
      exact ⟨⟨pre, [], hsrc, rfl, rfl, rfl, fun _ => rfl, by simp, by simp⟩,
        hfits⟩
  | cons c s ih =>
      rw [greedyLoop]
      split
      · rename_i hfull
        refine ⟨⟨pre, c :: s, hsrc, rfl, rfl, rfl, by simp, by simp, ?_⟩, hfits⟩
        rintro - rfl rfl
        have := hemit start c
        simp only [emitAll, List.length_nil] at hfull
        omega
      · rename_i hfull
        have hone : emitAll emit start (pre ++ [c]) =
            ((emitAll emit start pre).1 ++
              (emit (emitAll emit start pre).2 c).1,
              (emit (emitAll emit start pre).2 c).2) := by
          rw [emitAll_append]
          simp [emitAll]
        have hnext := @ih (pre ++ [c]) (by rw [hsrc]; simp) (by
          rw [hone, List.length_append]
          omega)
        rw [hone, strLen_append] at hnext
        simpa [strLen] using hnext

theorem greedy_faithful {finish : σ → List UInt8} {start : σ}
    (hemit : ∀ state c, (emit state c).1.length ≤ BUF_SIZE) :
    Faithful emit (greedy start emit finish).encode := fun _ src _ _ =>
  @greedyLoop_reports _ _ finish _ hemit _ src [] src rfl (Nat.zero_le _)

/-- ISO-2022-JP, for ASCII and one kana: whether a char of JIS X 0208 is in
front. -/
def emitJis (jis : Bool) (c : Char) : List UInt8 × Bool :=
  if c = Char.ofNat 0x3042 then
    ((if jis then [] else [0x1b, 0x24, 0x42]) ++ [0x24, 0x22], true)
  else
    ((if jis then [0x1b, 0x28, 0x42] else []) ++ [UInt8.ofNat c.toNat], false)

/-- At the end it is to be ASCII again. -/
def iso2022Jp : EncodingRs Bool :=
  greedy false emitJis fun jis => if jis then [0x1b, 0x28, 0x42] else []

theorem iso2022Jp_faithful : Faithful emitJis iso2022Jp.encode := by
  refine greedy_faithful fun jis c => ?_
  unfold emitJis
  split
  · cases jis <;> decide
  · cases jis <;> simp [BUF_SIZE]

end Zmax.ToWriter
