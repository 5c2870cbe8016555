/-
The MessagePack subset is read as it was written.

An object is read from its encoding, whatever is behind it, up to its
canonical form (`decodes_value`); so where objects follow each other, each
is read where the one before ends. What is read from some bytes is read as
well where there are more of them (`decodeWithin_extends`).
-/
import Mathlib.Algebra.Group.Nat.Defs
import Zmax.Lib.Reader
import Zmax.Term.Shada.File

namespace Zmax.Shada

open Reader

-- == numbers

variable {n width : Nat}

theorem take_reads {bytes : Bytes} (h : bytes.length = n) :
    Reads (take n) bytes bytes := by
  intro rest
  unfold take
  rw [if_pos (by rw [List.length_append]; omega), ← h, List.take_left,
    List.drop_left]

theorem length_beBytes (width n : Nat) :
    (beBytes width n).length = width := by
  induction width with
  | zero => rfl
  | succ width ih => rw [beBytes, List.length_cons, ih]

/-- The bytes of an integer are shifted together to its low bits. -/
theorem foldl_beBytes (width n acc : Nat) :
    (beBytes width n).foldl (fun acc b => acc * 256 + b.toNat) acc
      = acc * 256 ^ width + n % 256 ^ width := by
  induction width generalizing acc with
  | zero =>
      rw [beBytes, List.foldl_nil, Nat.pow_zero, Nat.mod_one, Nat.mul_one,
        Nat.add_zero]
  | succ width ih =>
      have hcomm : n / 256 ^ width % 2 ^ 8 * 256 ^ width
          = 256 ^ width * (n / 256 ^ width % 256) := Nat.mul_comm _ _
      have hassoc : acc * 256 * 256 ^ width = acc * 256 ^ (width + 1) := by
        rw [Nat.mul_assoc, Nat.pow_succ, Nat.mul_comm 256]
      rw [beBytes, List.foldl_cons, ih, Nat.mod_pow_succ, UInt8.toNat_ofNat',
        Nat.pow_eq, Nat.add_mul, hcomm, hassoc, Nat.add_assoc,
        Nat.add_comm (n % 256 ^ width)]

theorem beUint_reads (h : n < 256 ^ width) :
    Reads (beUint width) (beBytes width n) n := by
  have hfold := foldl_beBytes width n 0
  rw [Nat.zero_mul, Nat.zero_add, Nat.mod_eq_of_lt h] at hfold
  have hreads := (take_reads (length_beBytes width n)).map
    (List.foldl (fun acc b => acc * 256 + b.toNat) 0)
  rwa [hfold] at hreads

theorem decodeUint_reads {n : UInt64} (h : n.toNat < 256 ^ width) :
    Reads (decodeUint width) (beBytes width n.toNat) (.uint n) := by
  have hreads := (beUint_reads h).map fun n => Value.uint (.ofNat n)
  rwa [UInt64.ofNat_toNat] at hreads

/-- The bits of an integer stand for it where they are enough. -/
theorem signed_castBits {n : Int} (hpos : 0 < width)
    (hlow : -(256 ^ width / 2 : Nat) ≤ n) (hneg : n < 0) :
    signed width (castBits width n) = n := by
  have heven : 256 ^ width = 2 * (256 ^ width / 2) := by
    obtain ⟨w, rfl⟩ := Nat.exists_eq_add_of_lt hpos
    have hpow : 256 ^ (0 + w + 1) = 2 * (128 * 256 ^ (0 + w)) := by
      rw [Nat.pow_succ]
      omega
    omega
  unfold signed castBits
  rw [Nat.pow_eq]
  generalize hpow : 256 ^ width = m at *
  generalize m / 2 = k at *
  have hmod : n % (m : Int) = n + m := by
    rw [← Int.add_emod_right, Int.emod_eq_of_lt (by omega) (by omega)]
  rw [hmod, if_neg (by omega)]
  omega

theorem castBits_lt (width : Nat) (n : Int) :
    castBits width n < 256 ^ width := by
  have hpos : 0 < 256 ^ width := Nat.pow_pos (by omega)
  unfold castBits
  rw [Nat.pow_eq]
  have := Int.emod_lt_of_pos n (b := (256 ^ width : Nat)) (by omega)
  have := Int.emod_nonneg n (b := (256 ^ width : Nat)) (by omega)
  omega

theorem decodeInt_reads {n : Int64} (hpos : 0 < width)
    (hlow : -(256 ^ width / 2 : Nat) ≤ n.toInt) (hneg : n.toInt < 0) :
    Reads (decodeInt width) (beBytes width (castBits width n.toInt))
      (.int n) := by
  have hreads := (beUint_reads (castBits_lt width n.toInt)).map
    fun bits => Value.int (.ofInt (signed width bits))
  rwa [signed_castBits hpos hlow hneg, Int64.ofInt_toInt] at hreads

theorem decodeStr_reads (s : Tendril) :
    Reads (decodeStr (Utf8.encode s).length) (Utf8.encode s) (.str s) := by
  have htake : Reads (take (Utf8.encode s).length) (Utf8.encode s) _ :=
    take_reads rfl
  have hreads := htake.map fun raw => Value.str (Utf8.lossy raw)
  rwa [Utf8.lossy_encode] at hreads

theorem decodeBin_reads (b : Bytes) :
    Reads (decodeBin b.length) b (.bin b) :=
  (take_reads rfl).map Value.bin

theorem decodeLong_reads
    {body : Nat → Bytes → Except Tendril (Value × Bytes)} {bytes : Bytes}
    {value : Value} (h : n < 256 ^ width)
    (hbody : Reads (body n) bytes value) :
    Reads (decodeLong body width) (beBytes width n ++ bytes) value :=
  (beUint_reads h).andThen hbody

-- == objects

section

variable (widen : UInt32 → UInt64)

/-- An object is read from some bytes, where the depth is not bounded more
than by these. -/
def Decodes (bytes : Bytes) (value : Value) : Prop :=
  ∀ depth, bytes.length ≤ depth →
    Reads (decodeWithin widen depth) bytes value

variable {widen}

variable {bytes : Bytes} {len : Nat}

theorem decodes_cons {head : UInt8} {value : Value}
    (h : ∀ depth, bytes.length ≤ depth →
      Reads (decodeBody (decodeWithin widen depth) widen head) bytes value) :
    Decodes widen (head :: bytes) value := by
  rintro (_ | depth) hdepth rest
  · exact absurd hdepth (Nat.not_succ_le_zero _)
  · exact h depth (Nat.le_of_succ_le_succ hdepth) rest

theorem beBytes_one (n : Nat) : beBytes 1 n = [UInt8.ofNat n] := by
  rw [beBytes, beBytes, Nat.pow_eq, Nat.pow_zero, Nat.div_one]

/-- A short length stands in the low bits of the first byte. -/
theorem fixed_array : ∀ n < 16, (0x90 ||| UInt8.ofNat n).toNat = 0x90 + n
    ∧ ((0x90 ||| UInt8.ofNat n) &&& 0x0f).toNat = n := by
  decide

theorem fixed_map : ∀ n < 16, (0x80 ||| UInt8.ofNat n).toNat = 0x80 + n
    ∧ ((0x80 ||| UInt8.ofNat n) &&& 0x0f).toNat = n := by
  decide

theorem fixed_str : ∀ n < 32, (0xa0 ||| UInt8.ofNat n).toNat = 0xa0 + n
    ∧ ((0xa0 ||| UInt8.ofNat n) &&& 0x1f).toNat = n := by
  decide

theorem decodes_uint (n : UInt64) :
    Decodes widen (encodeUint n.toNat) (.uint n) := by
  have hlt : n.toNat < 0x10000000000000000 := n.toNat_lt
  unfold encodeUint
  by_cases hfix : n.toNat < 0x80
  · rw [if_pos hfix]
    refine decodes_cons fun depth _ rest => ?_
    unfold decodeBody
    rw [UInt8.toNat_ofNat', Nat.mod_eq_of_lt (by omega), if_pos (by omega),
      UInt64.ofNat_toNat]
    rfl
  rw [if_neg hfix]
  by_cases h8 : n.toNat ≤ 0xff
  · rw [if_pos h8, ← beBytes_one]
    exact decodes_cons fun _ _ => decodeUint_reads (by omega)
  rw [if_neg h8]
  by_cases h16 : n.toNat ≤ 0xffff
  · rw [if_pos h16]
    exact decodes_cons fun _ _ => decodeUint_reads (by omega)
  rw [if_neg h16]
  by_cases h32 : n.toNat ≤ 0xffffffff
  · rw [if_pos h32]
    exact decodes_cons fun _ _ => decodeUint_reads (by omega)
  · rw [if_neg h32]
    exact decodes_cons fun _ _ => decodeUint_reads (by omega)

theorem decodes_int {n : Int64} (hneg : n.toInt < 0) :
    Decodes widen (encodeInt n.toInt) (.int n) := by
  have hlow : -0x8000000000000000 ≤ n.toInt := n.le_toInt
  unfold encodeInt
  by_cases hfix : -32 ≤ n.toInt
  · rw [if_pos hfix]
    refine decodes_cons fun depth _ rest => ?_
    have hsigned : signed 1 (castBits 1 n.toInt) = n.toInt :=
      signed_castBits (by omega) (by omega) hneg
    have hbits : 0xe0 ≤ castBits 1 n.toInt := by
      unfold castBits
      rw [Nat.pow_eq]
      omega
    unfold decodeBody
    rw [UInt8.toNat_ofNat_of_lt' (castBits_lt 1 n.toInt), if_neg (by omega),
      if_neg (by omega), if_neg (by omega), if_neg (by omega), if_pos hbits,
      hsigned, Int64.ofInt_toInt]
    rfl
  rw [if_neg hfix]
  by_cases h8 : -0x80 ≤ n.toInt
  · rw [if_pos h8]
    exact decodes_cons fun _ _ =>
      decodeInt_reads (by omega) (by omega) hneg
  rw [if_neg h8]
  by_cases h16 : -0x8000 ≤ n.toInt
  · rw [if_pos h16]
    exact decodes_cons fun _ _ =>
      decodeInt_reads (by omega) (by omega) hneg
  rw [if_neg h16]
  by_cases h32 : -0x80000000 ≤ n.toInt
  · rw [if_pos h32]
    exact decodes_cons fun _ _ =>
      decodeInt_reads (by omega) (by omega) hneg
  · rw [if_neg h32]
    exact decodes_cons fun _ _ =>
      decodeInt_reads (by omega) (by omega) hneg

theorem decodes_str {s : Tendril}
    (h : (Utf8.encode s).length < LENGTH_MAX) :
    Decodes widen (encodeStr s) (.str s) := by
  have hs := decodeStr_reads s
  unfold LENGTH_MAX at h
  unfold encodeStr
  dsimp only
  generalize Utf8.encode s = b at *
  by_cases hfix : b.length < 32
  · rw [if_pos hfix]
    refine decodes_cons fun depth _ rest => ?_
    obtain ⟨hhead, hlen⟩ := fixed_str b.length hfix
    unfold decodeBody
    rw [hhead, hlen, if_neg (by omega), if_neg (by omega),
      if_neg (by omega), if_pos (by omega)]
    exact hs rest
  rw [if_neg hfix]
  by_cases h8 : b.length ≤ 0xff
  · rw [if_pos h8, ← beBytes_one]
    exact decodes_cons fun _ _ => decodeLong_reads (by omega) hs
  rw [if_neg h8]
  by_cases h16 : b.length ≤ 0xffff
  · rw [if_pos h16]
    exact decodes_cons fun _ _ => decodeLong_reads (by omega) hs
  · rw [if_neg h16]
    exact decodes_cons fun _ _ => decodeLong_reads (by omega) hs

theorem decodes_bin {b : Bytes} (h : b.length < LENGTH_MAX) :
    Decodes widen (encodeBin b) (.bin b) := by
  have hb := decodeBin_reads b
  unfold LENGTH_MAX at h
  unfold encodeBin
  by_cases h8 : b.length ≤ 0xff
  · rw [if_pos h8, ← beBytes_one]
    exact decodes_cons fun _ _ => decodeLong_reads (by omega) hb
  rw [if_neg h8]
  by_cases h16 : b.length ≤ 0xffff
  · rw [if_pos h16]
    exact decodes_cons fun _ _ => decodeLong_reads (by omega) hb
  · rw [if_neg h16]
    exact decodes_cons fun _ _ => decodeLong_reads (by omega) hb

/-- What follows a header is read as often as this says. -/
theorem decodes_len {fixed wide16 wide32 : UInt8} {value : Value}
    (h : len < LENGTH_MAX)
    (body : Of Tendril UInt8 Value → Nat → Of Tendril UInt8 Value)
    (hfixed : len < 16 → ∀ decode,
      decodeBody decode widen (fixed ||| UInt8.ofNat len) = body decode len)
    (h16 : ∀ decode,
      decodeBody decode widen wide16 = decodeLong (body decode) 2)
    (h32 : ∀ decode,
      decodeBody decode widen wide32 = decodeLong (body decode) 4)
    (hbody : ∀ depth, bytes.length ≤ depth →
      Reads (body (decodeWithin widen depth) len) bytes value) :
    Decodes widen (encodeLen len fixed wide16 wide32 ++ bytes) value := by
  unfold LENGTH_MAX at h
  unfold encodeLen
  by_cases hfix : len < 16
  · rw [if_pos hfix]
    refine decodes_cons fun depth hdepth => ?_
    rw [hfixed hfix]
    exact hbody depth hdepth
  rw [if_neg hfix]
  by_cases hwide : len ≤ 0xffff
  · rw [if_pos hwide, List.cons_append]
    refine decodes_cons fun depth hdepth => ?_
    rw [h16]
    rw [List.length_append] at hdepth
    exact decodeLong_reads (by omega) (hbody depth (by omega))
  · rw [if_neg hwide, List.cons_append]
    refine decodes_cons fun depth hdepth => ?_
    rw [h32]
    rw [List.length_append] at hdepth
    exact decodeLong_reads (by omega) (hbody depth (by omega))

theorem decodes_array {items : List Value} (h : len < LENGTH_MAX)
    (hitems : ∀ depth, bytes.length ≤ depth →
      Reads (decodeItems (decodeWithin widen depth) len) bytes items) :
    Decodes widen (encodeLen len 0x90 0xdc 0xdd ++ bytes)
      (.array items) := by
  refine decodes_len h decodeArray ?_ (fun _ => rfl)
    (fun _ => rfl) fun depth hdepth => (hitems depth hdepth).map Value.array
  intro hfix decode
  obtain ⟨hhead, hlen⟩ := fixed_array len hfix
  funext rest
  unfold decodeBody
  rw [hhead, hlen, if_neg (by omega), if_neg (by omega), if_pos (by omega)]

theorem decodes_map {pairs : List (Value × Value)} (h : len < LENGTH_MAX)
    (hpairs : ∀ depth, bytes.length ≤ depth →
      Reads (decodePairs (decodeWithin widen depth) len) bytes pairs) :
    Decodes widen (encodeLen len 0x80 0xde 0xdf ++ bytes)
      (.map pairs) := by
  refine decodes_len h decodeMap ?_ (fun _ => rfl)
    (fun _ => rfl) fun depth hdepth => (hpairs depth hdepth).map Value.map
  intro hfix decode
  obtain ⟨hhead, hlen⟩ := fixed_map len hfix
  funext rest
  unfold decodeBody
  rw [hhead, hlen, if_neg (by omega), if_pos (by omega)]

section

variable (decode : Of Tendril UInt8 Value) (n : Nat)

theorem decodeItems_succ : decodeItems decode (n + 1)
    = andThen decode fun item =>
        map (fun items => item :: items) (decodeItems decode n) := rfl

theorem decodePairs_succ : decodePairs decode (n + 1)
    = andThen decode fun k => andThen decode fun v =>
        map (fun pairs => (k, v) :: pairs) (decodePairs decode n) := rfl

end

mutual

/-- An object is read as its canonical form. -/
theorem decodes_value : ∀ value : Value, value.Fits →
    Decodes widen value.encode value.canonical
  | .nil, _ => decodes_cons fun _ _ _ => rfl
  | .bool false, _ => decodes_cons fun _ _ _ => rfl
  | .bool true, _ => decodes_cons fun _ _ _ => rfl
  | .uint n, _ => decodes_uint n
  | .int n, _ => by
      rw [Value.encode, Value.canonical]
      by_cases hn : 0 ≤ n.toInt
      · rw [if_pos hn, if_pos hn]
        have hlt : n.toInt < 0x8000000000000000 := n.toInt_lt
        have huint : Decodes widen _ _ := decodes_uint (.ofNat n.toInt.toNat)
        rwa [UInt64.toNat_ofNat', Nat.mod_eq_of_lt (by omega)] at huint
      · rw [if_neg hn, if_neg hn]
        exact decodes_int (by omega)
  | .f64 bits, _ => by
      have hlt : bits.toNat < 256 ^ 8 := bits.toNat_lt
      refine decodes_cons fun depth _ => ?_
      have hreads := (beUint_reads hlt).map fun bits => Value.f64 (.ofNat bits)
      rwa [UInt64.ofNat_toNat] at hreads
  | .str s, h => decodes_str h
  | .bin b, h => decodes_bin h
  | .array items, h => decodes_array h.1 (decodes_items items h.2)
  | .map pairs, h => decodes_map h.1 (decodes_pairs pairs h.2)

theorem decodes_items : ∀ items : List Value, Value.ItemsFit items →
    ∀ depth, (Value.encodeItems items).length ≤ depth →
      Reads (decodeItems (decodeWithin widen depth) items.length)
        (Value.encodeItems items) (Value.canonicalItems items)
  | [], _, _, _ => Reads.pure _
  | item :: items, h, depth, hdepth => by
      rw [Value.encodeItems, List.length_append] at hdepth
      have hitem := decodes_value item h.1 depth (by omega)
      have hitems := decodes_items items h.2 depth (by omega)
      rw [List.length_cons, decodeItems_succ, Value.encodeItems,
        Value.canonicalItems]
      exact hitem.andThen (hitems.map _)

theorem decodes_pairs : ∀ pairs : List (Value × Value),
    Value.PairsFit pairs →
    ∀ depth, (Value.encodePairs pairs).length ≤ depth →
      Reads (decodePairs (decodeWithin widen depth) pairs.length)
        (Value.encodePairs pairs) (Value.canonicalPairs pairs)
  | [], _, _, _ => Reads.pure _
  | (k, v) :: pairs, h, depth, hdepth => by
      rw [Value.encodePairs, List.length_append, List.length_append] at hdepth
      have hk := decodes_value k h.1 depth (by omega)
      have hv := decodes_value v h.2.1 depth (by omega)
      have hpairs := decodes_pairs pairs h.2.2 depth (by omega)
      rw [List.length_cons, decodePairs_succ, Value.encodePairs,
        Value.canonicalPairs]
      exact hk.andThen (hv.andThen (hpairs.map _))

end

end

-- == relations

section

variable {R : (α : Type) → Of Tendril UInt8 α → Of Tendril UInt8 α → Prop}
variable (hR : Lifts R) (htake : ∀ n, R Bytes (take n) (take n))
variable {decode decode' : Of Tendril UInt8 Value}
variable (h : R Value decode decode')

include hR

section

include h

theorem decodeItems_lifts (n : Nat) :
    R _ (decodeItems decode n) (decodeItems decode' n) := by
  induction n with
  | zero => exact hR.pure []
  | succ n ih => exact hR.andThen h fun item => hR.map (item :: ·) ih

theorem decodePairs_lifts (n : Nat) :
    R _ (decodePairs decode n) (decodePairs decode' n) := by
  induction n with
  | zero => exact hR.pure []
  | succ n ih =>
      exact hR.andThen h fun k => hR.andThen h fun v => hR.map ((k, v) :: ·) ih

end

include htake

theorem beUint_lifts (width : Nat) : R _ (beUint width) (beUint width) :=
  hR.map _ (htake width)

theorem decodeLong_lifts {body body' : Nat → Of Tendril UInt8 Value}
    (hbody : ∀ n, R _ (body n) (body' n)) (width : Nat) :
    R _ (decodeLong body width) (decodeLong body' width) :=
  hR.andThen (beUint_lifts hR htake width) hbody

include h

/-- What holds of how the objects in an object are read holds of how it is
read. -/
theorem decodeBody_lifts (widen : UInt32 → UInt64) (head : UInt8) :
    R _ (decodeBody decode widen head) (decodeBody decode' widen head) := by
  have harray (n : Nat) : R _ (decodeArray decode n) (decodeArray decode' n) :=
    hR.map Value.array (decodeItems_lifts hR h n)
  have hmap (n : Nat) : R _ (decodeMap decode n) (decodeMap decode' n) :=
    hR.map Value.map (decodePairs_lifts hR h n)
  have hstr (n : Nat) : R _ (decodeStr n) (decodeStr n) :=
    hR.map (fun raw => Value.str (Utf8.lossy raw)) (htake n)
  have hbin (n : Nat) : R _ (decodeBin n) (decodeBin n) :=
    hR.map Value.bin (htake n)
  have hnum (width : Nat) := beUint_lifts hR htake width
  have huint (width : Nat) : R _ (decodeUint width) (decodeUint width) :=
    hR.map (fun n => Value.uint (.ofNat n)) (hnum width)
  have hint (width : Nat) : R _ (decodeInt width) (decodeInt width) :=
    hR.map (fun n => Value.int (.ofInt (signed width n))) (hnum width)
  have hfloat := hR.map (fun n => Value.f64 (widen (.ofNat n))) (hnum 4)
  have hdouble := hR.map (fun n => Value.f64 (.ofNat n)) (hnum 8)
  have hlong {body body' : Nat → Of Tendril UInt8 Value}
      (hbody : ∀ n, R _ (body n) (body' n)) (width : Nat) :=
    decodeLong_lifts hR htake hbody width
  exact Lifts.ite (hR.pure _) <| Lifts.ite (hmap _) <|
    Lifts.ite (harray _) <| Lifts.ite (hstr _) <|
    Lifts.ite (hR.pure _) <| Lifts.ite (hR.pure _) <|
    Lifts.ite (hR.pure _) <| Lifts.ite (hR.pure _) <|
    Lifts.ite (hlong hbin 1) <| Lifts.ite (hlong hbin 2) <|
    Lifts.ite (hlong hbin 4) <| Lifts.ite hfloat <| Lifts.ite hdouble <|
    Lifts.ite (huint 1) <| Lifts.ite (huint 2) <|
    Lifts.ite (huint 4) <| Lifts.ite (huint 8) <|
    Lifts.ite (hint 1) <| Lifts.ite (hint 2) <|
    Lifts.ite (hint 4) <| Lifts.ite (hint 8) <|
    Lifts.ite (hlong hstr 1) <| Lifts.ite (hlong hstr 2) <|
    Lifts.ite (hlong hstr 4) <| Lifts.ite (hlong harray 2) <|
    Lifts.ite (hlong harray 4) <| Lifts.ite (hlong hmap 2) <|
    Lifts.ite (hlong hmap 4) <| hR.error _

end

theorem take_extends (n : Nat) : Extends Bytes (take n) (take n) := by
  intro input read rest hread more
  unfold take at hread ⊢
  by_cases hn : n ≤ input.length
  · rw [if_pos hn] at hread
    injection hread with hread
    injection hread with hread hrest
    rw [if_pos (by rw [List.length_append]; omega),
      List.take_append_of_le_length hn, List.drop_append_of_le_length hn,
      hread, hrest]
  · rw [if_neg hn] at hread
    cases hread

theorem take_agree (n m : Nat) : Agree m Bytes (take n) (take n) := by
  refine fun input _ => ⟨rfl, fun read rest hread => ?_⟩
  unfold take at hread
  by_cases hn : n ≤ input.length
  · rw [if_pos hn] at hread
    injection hread with hread
    injection hread with _ hrest
    rw [← hrest, List.length_drop]
    exact Nat.sub_le _ _
  · rw [if_neg hn] at hread
    cases hread

section

variable (widen : UInt32 → UInt64)

/-- More bytes, and a higher bound, do not change what is read. -/
theorem decodeWithin_extends {depth depth' : Nat} (h : depth ≤ depth') :
    Extends Value (decodeWithin widen depth) (decodeWithin widen depth') := by
  induction depth generalizing depth' with
  | zero => rintro input value rest ⟨⟩
  | succ depth ih =>
      obtain ⟨d, rfl⟩ := Nat.exists_eq_add_of_le h
      rw [Nat.add_right_comm]
      rintro (_ | ⟨head, bytes⟩) value rest hread more
      · cases hread
      · have hdepth : Extends Value (decodeWithin widen depth)
            (decodeWithin widen (depth + d)) := ih (Nat.le_add_right _ _)
        exact decodeBody_lifts extends_lifts take_extends hdepth widen head
          bytes value rest hread more

/-- A bound of all bytes is never met, so what it is does not matter. -/
theorem decodeWithin_agree {n depth depth' : Nat} (h : n ≤ depth)
    (h' : n ≤ depth') :
    Agree n Value (decodeWithin widen depth) (decodeWithin widen depth') := by
  induction n generalizing depth depth' with
  | zero =>
      intro input hinput
      obtain rfl := List.eq_nil_of_length_eq_zero (Nat.le_zero.mp hinput)
      cases depth <;> cases depth' <;> exact ⟨rfl, by rintro a rest ⟨⟩⟩
  | succ n ih =>
      obtain ⟨d, rfl⟩ := Nat.exists_eq_add_of_le' h
      obtain ⟨d', rfl⟩ := Nat.exists_eq_add_of_le' h'
      rintro (_ | ⟨head, bytes⟩) hinput
      · exact ⟨rfl, by rintro a rest ⟨⟩⟩
      · have hagree : Agree n Value (decodeWithin widen (d + n))
            (decodeWithin widen (d' + n)) := ih (by omega) (by omega)
        obtain ⟨hsame, hless⟩ := decodeBody_lifts (agree_lifts n)
          (take_agree · n) hagree widen head bytes
          (Nat.le_of_succ_le_succ hinput)
        exact ⟨hsame, fun a rest hread =>
          Nat.le_trans (hless a rest hread) (Nat.le_succ _)⟩

theorem decode_extends : Extends Value (decode widen) (decode widen) := by
  intro input value rest hread more
  exact decodeWithin_extends widen
    (by rw [List.length_append]; omega) input value rest hread more

theorem Decodes.decode {bytes : Bytes} {value : Value}
    (h : Decodes widen bytes value) : Reads (decode widen) bytes value :=
  fun rest => h _ (by rw [List.length_append]; omega) rest

/-- An object has a byte at least. -/
theorem decode_less {input rest : Bytes} {value : Value}
    (h : decode widen input = .ok (value, rest)) :
    rest.length < input.length := by
  cases input with
  | nil => cases h
  | cons head bytes =>
      have hagree : Agree bytes.length Value _
          (decodeWithin widen bytes.length) :=
        decodeWithin_agree widen (Nat.le_refl _) (Nat.le_refl _)
      have hless := (decodeBody_lifts (agree_lifts bytes.length)
        (take_agree · bytes.length) hagree widen head bytes
        (Nat.le_refl _)).2 value rest h
      exact Nat.lt_succ_of_le hless

end

end Zmax.Shada
