/-
Texts as their UTF-8 bytes, with byte positions into them.

A byte below 128 is a char of its own, and every other char has only bytes
from 128 on. So a position is a char boundary as soon as the byte at it, or
the one in front of it, is below 128: that is all a scanner needs that looks
for ASCII delimiters.

# Bytes that are no text

What is no char is read as one replacement char for the longest run of
bytes that a char could have begun with. What is the encoding of a text is
read as this text (`lossy_encode`).
-/
import Mathlib.Data.List.Basic

namespace Utf8

/-- The bytes of a text. -/
def encode (s : List Char) : List UInt8 := s.flatMap String.utf8EncodeChar

/-- A byte that is not the first of its char. -/
def isContinuation (b : UInt8) : Bool := 128 ≤ b.toNat ∧ b.toNat < 192

/-- A position at which the bytes may be cut. -/
def isCharBoundary (bytes : List UInt8) (i : Nat) : Bool :=
  match bytes[i]? with
  | some b => i = 0 ∨ ¬ isContinuation b
  | none => i = bytes.length

/-- What a byte below 128 is followed by begins a char. -/
def Whole (bytes : List UInt8) : Prop :=
  ∀ i b, bytes[i]? = some b → b.toNat < 128 → isCharBoundary bytes (i + 1)

-- == chars

/-- A char is one byte below 128, or bytes from 128 on with a first one that
no continuation is. -/
theorem encodeChar_cases (c : Char) :
    (∃ b, String.utf8EncodeChar c = [b] ∧ b.toNat < 128 ∧ b.toNat = c.toNat) ∨
      ∃ b bs, String.utf8EncodeChar c = b :: bs ∧ isContinuation b = false ∧
        128 ≤ c.toNat ∧ ∀ x ∈ b :: bs, 128 ≤ x.toNat := by
  have hval : c.val.toNat = c.toNat := rfl
  have hlt : c.val.toNat < 1114112 := by
    rcases c.valid with h | ⟨-, h⟩
    · have : c.val.toNat < 55296 := h
      omega
    · exact h
  unfold String.utf8EncodeChar
  simp only
  split
  · rename_i h
    refine .inl ⟨_, rfl, ?_, ?_⟩
    · rw [UInt8.toNat_ofNat']
      omega
    · rw [UInt8.toNat_ofNat']
      omega
  · rename_i h
    refine .inr ?_
    split
    · refine ⟨_, _, rfl, ?_, by omega, ?_⟩
      · simp only [isContinuation, UInt8.toNat_ofNat', decide_eq_false_iff_not]
        omega
      · simp only [List.mem_cons, List.not_mem_nil, or_false, forall_eq_or_imp,
          forall_eq, UInt8.toNat_ofNat']
        omega
    · split
      · refine ⟨_, _, rfl, ?_, by omega, ?_⟩
        · simp only [isContinuation, UInt8.toNat_ofNat',
            decide_eq_false_iff_not]
          omega
        · simp only [List.mem_cons, List.not_mem_nil, or_false,
            forall_eq_or_imp, forall_eq, UInt8.toNat_ofNat']
          omega
      · refine ⟨_, _, rfl, ?_, by omega, ?_⟩
        · simp only [isContinuation, UInt8.toNat_ofNat',
            decide_eq_false_iff_not]
          omega
        · simp only [List.mem_cons, List.not_mem_nil, or_false,
            forall_eq_or_imp, forall_eq, UInt8.toNat_ofNat']
          omega

/-- The first byte of a char is no continuation and all others are; a byte
below 128 is all of its char. -/
theorem encodeChar_spec (c : Char) :
    ∃ b bs, String.utf8EncodeChar c = b :: bs ∧ isContinuation b = false ∧
      (∀ x ∈ bs, isContinuation x = true) ∧ (bs = [] → b.toNat < 128) ∧
      (bs ≠ [] → ∀ x ∈ b :: bs, 128 ≤ x.toNat) := by
  rcases encodeChar_cases c with ⟨b, hb, hlt, -⟩ | ⟨b, bs, hb, hcont, hge, hall⟩
  · refine ⟨b, [], hb, ?_, nofun, fun _ => hlt, fun h => absurd rfl h⟩
    unfold isContinuation
    rw [decide_eq_false_iff_not]
    omega
  · have hval : c.val.toNat = c.toNat := rfl
    refine ⟨b, bs, hb, hcont, ?_, fun h => ?_, fun _ => hall⟩
    · unfold String.utf8EncodeChar at hb
      simp only at hb
      split at hb
      · omega
      · split at hb
        · injection hb with _ hbs
          subst hbs
          simp only [List.mem_cons, List.not_mem_nil, or_false, forall_eq,
            isContinuation, UInt8.toNat_ofNat', decide_eq_true_eq]
          omega
        · split at hb
          · injection hb with _ hbs
            subst hbs
            simp only [List.mem_cons, List.not_mem_nil, or_false,
              forall_eq_or_imp, forall_eq, isContinuation,
              UInt8.toNat_ofNat', decide_eq_true_eq]
            omega
          · injection hb with _ hbs
            subst hbs
            simp only [List.mem_cons, List.not_mem_nil, or_false,
              forall_eq_or_imp, forall_eq, isContinuation,
              UInt8.toNat_ofNat', decide_eq_true_eq]
            omega
    · subst h
      unfold String.utf8EncodeChar at hb
      simp only at hb
      split at hb
      · omega
      · split at hb
        · injection hb with _ hbs
          cases hbs
        · split at hb
          · injection hb with _ hbs
            cases hbs
          · injection hb with _ hbs
            cases hbs

@[simp] theorem encode_nil : encode [] = [] := rfl

@[simp] theorem encode_cons (c : Char) (s : List Char) :
    encode (c :: s) = String.utf8EncodeChar c ++ encode s := rfl

@[simp] theorem encode_append (s t : List Char) :
    encode (s ++ t) = encode s ++ encode t := List.flatMap_append

/-- The first byte of a text is no continuation. -/
theorem encode_head {s : List Char} {b : UInt8} (h : (encode s).head? = some b) :
    isContinuation b = false := by
  cases s with
  | nil => cases h
  | cons c s =>
      rw [encode_cons] at h
      rcases encodeChar_cases c with ⟨x, hx, hlt, -⟩ | ⟨x, xs, hx, hcont, -⟩
      · rw [hx] at h
        obtain rfl := Option.some.inj h
        unfold isContinuation
        rw [decide_eq_false_iff_not]
        omega
      · rw [hx] at h
        obtain rfl := Option.some.inj h
        exact hcont

/-- Behind a byte below 128 another char begins. -/
theorem encode_ascii {s : List Char} {pre post : List UInt8} {b : UInt8}
    (h : encode s = pre ++ b :: post) (hb : b.toNat < 128) :
    ∀ x, post.head? = some x → isContinuation x = false := by
  induction s generalizing pre with
  | nil =>
      have := congrArg List.length h
      simp at this
  | cons c s ih =>
      rw [encode_cons] at h
      rcases List.append_eq_append_iff.mp h with
        ⟨mid, hpre, hrest⟩ | ⟨mid, hchar, hrest⟩
      · exact ih hrest
      · cases mid with
        | nil => exact @ih [] hrest.symm
        | cons x mid =>
            rw [List.cons_append] at hrest
            injection hrest with hbx hrest
            subst hbx
            rcases encodeChar_cases c with ⟨y, hy, -⟩ | ⟨y, ys, hy, -, -, hall⟩
            · rw [hy] at hchar
              have hlen := congrArg List.length hchar
              simp only [List.length_nil, List.length_append,
                List.length_cons] at hlen
              obtain rfl := List.length_eq_zero_iff.mp
                (show mid.length = 0 by omega)
              intro x hx
              rw [hrest] at hx
              exact encode_head hx
            · have := hall b (by rw [← hy, hchar]; simp)
              omega

theorem encode_whole (s : List Char) : Whole (encode s) := by
  intro i b hb hlt
  have hi := (List.getElem?_eq_some_iff.mp hb).1
  have hsplit : encode s = (encode s).take i ++ b :: (encode s).drop (i + 1) := by
    conv_lhs => rw [← List.take_append_drop i (encode s)]
    rw [List.drop_eq_getElem_cons hi, (List.getElem?_eq_some_iff.mp hb).2]
  have hnext := encode_ascii hsplit hlt
  unfold isCharBoundary
  rw [List.head?_drop] at hnext
  cases hx : (encode s)[i + 1]? with
  | none =>
      have := List.getElem?_eq_none_iff.mp hx
      simp only [decide_eq_true_eq]
      omega
  | some x => simp [hnext x hx]

/-- A byte below 128 is there as the char. -/
theorem mem_of_mem_encode {s : List Char} {b : UInt8} (h : b ∈ encode s)
    (hb : b.toNat < 128) : Char.ofNat b.toNat ∈ s := by
  obtain ⟨c, hc, hmem⟩ := List.mem_flatMap.mp h
  rcases encodeChar_cases c with ⟨x, hx, -, heq⟩ | ⟨x, xs, hx, -, -, hall⟩
  · rw [hx, List.mem_singleton] at hmem
    rwa [hmem, heq, Char.ofNat_toNat]
  · have := hall b (by rwa [← hx])
    omega

-- == boundaries

@[simp] theorem boundary_zero (bytes : List UInt8) :
    isCharBoundary bytes 0 = true := by
  unfold isCharBoundary
  cases bytes <;> simp

@[simp] theorem boundary_length (bytes : List UInt8) :
    isCharBoundary bytes bytes.length = true := by
  simp [isCharBoundary]

/-- The byte at the position is below 128. -/
theorem boundary_ascii {bytes : List UInt8} {i : Nat} {b : UInt8}
    (h : bytes[i]? = some b) (hb : b.toNat < 128) :
    isCharBoundary bytes i = true := by
  unfold isCharBoundary isContinuation
  rw [h]
  simp only [decide_eq_true_eq]
  omega

theorem boundary_le {bytes : List UInt8} {i : Nat}
    (h : isCharBoundary bytes i = true) : i ≤ bytes.length := by
  unfold isCharBoundary at h
  split at h
  · rename_i hi
    exact Nat.le_of_lt (List.getElem?_eq_some_iff.mp hi).1
  · exact Nat.le_of_eq (of_decide_eq_true h)

/-- The char that bytes begin with. -/
def decodeChar? (bytes : List UInt8) : Option Char :=
  bytes.toByteArray.utf8DecodeChar? 0

/-- Whether a second byte can follow the first one of a longer char. -/
def mayFollow (first second : UInt8) : Bool :=
  if first = 0xe0 then 0xa0 ≤ second && second ≤ 0xbf
  else if first = 0xed then 0x80 ≤ second && second ≤ 0x9f
  else if 0xe1 ≤ first && first ≤ 0xef then isContinuation second
  else if first = 0xf0 then 0x90 ≤ second && second ≤ 0xbf
  else if first = 0xf4 then 0x80 ≤ second && second ≤ 0x8f
  else if 0xf1 ≤ first && first ≤ 0xf3 then isContinuation second
  else false

/-- How many bytes are replaced at once, where they begin with no char. -/
def invalidLength : List UInt8 → Nat
  | first :: second :: rest =>
      if mayFollow first second then
        match rest with
        | third :: _ =>
            if 0xf0 ≤ first && isContinuation third then 3 else 2
        | [] => 2
      else 1
  | _ => 1

/-- Chars behind the next `skip` bytes. -/
def lossyFrom : (skip : Nat) → List UInt8 → List Char
  | _, [] => []
  | skip + 1, _ :: bytes => lossyFrom skip bytes
  | 0, b :: bytes =>
      match decodeChar? (b :: bytes) with
      | some c => c :: lossyFrom (c.utf8Size - 1) bytes
      | none =>
          Char.ofNat 0xfffd
            :: lossyFrom (invalidLength (b :: bytes) - 1) bytes

/-- `String::from_utf8_lossy` -/
def lossy (bytes : List UInt8) : List Char := lossyFrom 0 bytes

attribute [grind =] lossyFrom

theorem lossyFrom_skip (read bytes : List UInt8) :
    lossyFrom read.length (read ++ bytes) = lossyFrom 0 bytes := by
  induction read with
  | nil => rfl
  | cons b read ih => exact ih

theorem decodeChar?_encodeChar (c : Char) (bytes : List UInt8) :
    decodeChar? (String.utf8EncodeChar c ++ bytes) = some c := by
  unfold decodeChar?
  rw [List.toByteArray_append]
  exact ByteArray.utf8DecodeChar?_utf8EncodeChar_append

theorem lossyFrom_encodeChar (c : Char) (bytes : List UInt8) :
    lossyFrom 0 (String.utf8EncodeChar c ++ bytes)
      = c :: lossyFrom 0 bytes := by
  have hread := decodeChar?_encodeChar c bytes
  have hlen := String.length_utf8EncodeChar c
  cases hc : String.utf8EncodeChar c with
  | nil =>
      rw [hc] at hlen
      exact absurd hlen.symm (Nat.ne_of_gt c.utf8Size_pos)
  | cons b read =>
      rw [hc, List.cons_append] at hread
      rw [hc, List.length_cons] at hlen
      rw [List.cons_append, lossyFrom, hread]
      show c :: lossyFrom (c.utf8Size - 1) (read ++ bytes) = _
      rw [← hlen]
      exact congrArg (c :: ·) (lossyFrom_skip read bytes)

/-- An encoded text is read as it was. -/
theorem lossy_encode (s : List Char) : lossy (encode s) = s := by
  induction s with
  | nil => rfl
  | cons c s ih =>
      unfold lossy at ih ⊢
      rw [encode_cons, lossyFrom_encodeChar, ih]

end Utf8
