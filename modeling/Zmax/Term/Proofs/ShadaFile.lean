/-
A file that is written is read again.

An entry is read from what it is written as, whatever is behind it
(`encodeEntry_reads`), so the entries of a file are read one after the
other. What is read of a file is read as well where the file goes on
(`decodeEntries_append`), and as the file has a byte at least for each
entry, the loop never ends for lack of turns (`decodeEntries_enough`).
-/
import Zmax.Term.Proofs.ShadaCodec
import Zmax.Term.Proofs.ShadaEntry

namespace Zmax.Shada

open Reader

section

variable (widen : UInt32 → UInt64)

-- == one entry

/-- A number that is read of an object. -/
def numberOf (what : String) (value : Value) : Of Tendril UInt8 UInt64 :=
  fun bytes => match value.asU64 with
    | some n => .ok (n, bytes)
    | none => .error (notUnsigned what)

theorem decodeNumber_eq (what : String) :
    decodeNumber widen what = andThen (decode widen) (numberOf what) := rfl

theorem decodeNumber_reads (what : String) (n : UInt64) :
    Reads (decodeNumber widen what) (Value.uint n).encode n := by
  have hvalue : Reads (decode widen) (Value.uint n).encode (.uint n) :=
    Decodes.decode widen (decodes_uint n)
  have hnum : Reads (numberOf what (.uint n)) [] n := Reads.pure n
  have hreads := hvalue.andThen hnum
  rwa [List.append_nil] at hreads

theorem decodeNumber_lifts {R : (α : Type) → Of Tendril UInt8 α →
      Of Tendril UInt8 α → Prop} (hR : Lifts R)
    (h : R Value (decode widen) (decode widen)) (what : String) :
    R UInt64 (decodeNumber widen what) (decodeNumber widen what) := by
  rw [decodeNumber_eq]
  refine hR.andThen h fun value => ?_
  unfold numberOf
  cases value.asU64 with
  | none => exact hR.error _
  | some n => exact hR.pure n

/-- The data of an entry of a type, which has a length. -/
def decodeData (typ timestamp len : UInt64) : Of Tendril UInt8 Entry :=
  fun bytes =>
    if typ = 0 then .error "entry with zero type".toList
    else if bytes.length < len.toNat then
      .error "entry length runs past the end of the file".toList
    else do
      let (data, rest) ← decode widen bytes
      if bytes.length ≠ len.toNat + rest.length then
        .error "entry data does not match the declared length".toList
      else return (⟨timestamp, .fromObject typ data⟩, rest)

theorem decodeEntry_eq : decodeEntry widen
    = andThen (decodeNumber widen "type") fun typ =>
        andThen (decodeNumber widen "timestamp") fun timestamp =>
          andThen (decodeNumber widen "length")
            (decodeData widen typ timestamp) := rfl

variable {bytes rest : Bytes} {entry : Entry} {turns : Nat}

theorem decodeData_eq_ok {typ timestamp len : UInt64} :
    decodeData widen typ timestamp len bytes = .ok (entry, rest)
      ↔ typ ≠ 0 ∧ bytes.length = len.toNat + rest.length
        ∧ ∃ data, decode widen bytes = .ok (data, rest)
          ∧ entry = ⟨timestamp, .fromObject typ data⟩ := by
  unfold decodeData
  constructor
  · intro h
    by_cases htyp : typ = 0
    · rw [if_pos htyp] at h
      cases h
    rw [if_neg htyp] at h
    by_cases hlen : bytes.length < len.toNat
    · rw [if_pos hlen] at h
      cases h
    rw [if_neg hlen] at h
    cases hdata : decode widen bytes with
    | error e =>
        rw [hdata] at h
        cases h
    | ok p =>
        rw [hdata] at h
        dsimp only [bind, Except.bind] at h
        by_cases hsame : bytes.length ≠ len.toNat + p.2.length
        · rw [if_pos hsame] at h
          cases h
        · rw [if_neg hsame] at h
          injection h with h
          injection h with hentry hrest
          subst hrest
          exact ⟨htyp, Decidable.not_not.mp hsame, p.1, rfl, hentry.symm⟩
  · rintro ⟨htyp, hlen, data, hdata, rfl⟩
    rw [if_neg htyp, if_neg (by omega), hdata]
    dsimp only [bind, Except.bind]
    rw [if_neg (fun h => h hlen)]
    rfl

theorem decodeData_extends (typ timestamp len : UInt64) :
    Extends Entry (decodeData widen typ timestamp len)
      (decodeData widen typ timestamp len) := by
  intro input entry rest hread more
  obtain ⟨htyp, hlen, data, hdata, hentry⟩ :=
    (decodeData_eq_ok widen).mp hread
  refine (decodeData_eq_ok widen).mpr ⟨htyp, ?_, data,
    decode_extends widen input data rest hdata more, hentry⟩
  rw [List.length_append, List.length_append]
  omega

theorem decodeEntry_extends :
    Extends Entry (decodeEntry widen) (decodeEntry widen) := by
  have hnum := decodeNumber_lifts widen extends_lifts (decode_extends widen)
  exact extends_lifts.andThen (hnum "type") fun typ =>
    extends_lifts.andThen (hnum "timestamp") fun timestamp =>
      extends_lifts.andThen (hnum "length") fun len =>
        decodeData_extends widen typ timestamp len

/-- An entry has a byte at least. -/
theorem decodeEntry_less (h : decodeEntry widen bytes = .ok (entry, rest)) :
    rest.length < bytes.length := by
  have hnum {what input n rest}
      (h : decodeNumber widen what input = .ok (n, rest)) :
      rest.length < input.length := by
    rw [decodeNumber_eq] at h
    obtain ⟨value, left, hvalue, hn⟩ := andThen_eq_ok h
    have hleft : left = rest := by
      unfold numberOf at hn
      cases hu : value.asU64 with
      | none =>
          rw [hu] at hn
          cases hn
      | some m =>
          rw [hu] at hn
          injection hn with hn
          injection hn
    exact hleft ▸ decode_less widen hvalue
  rw [decodeEntry_eq] at h
  obtain ⟨typ, behindType, htyp, h⟩ := andThen_eq_ok h
  obtain ⟨timestamp, behindTime, htime, h⟩ := andThen_eq_ok h
  obtain ⟨len, behindLen, hlen, h⟩ := andThen_eq_ok h
  obtain ⟨-, -, data, hdata, -⟩ := (decodeData_eq_ok widen).mp h
  calc rest.length
      < behindLen.length := decode_less widen hdata
    _ < behindTime.length := hnum hlen
    _ < behindType.length := hnum htime
    _ < bytes.length := hnum htyp

/-- The entry that is read where an object is an entry's data. -/
theorem encode_reads {typ : UInt64} (timestamp : UInt64) {data : Value}
    (htyp : typ ≠ 0) (hfits : data.Fits)
    (hlen : data.encode.length ≤ Text.USIZE_MAX) :
    Reads (decodeEntry widen)
      ((Value.uint typ).encode ++ ((Value.uint timestamp).encode
        ++ ((Value.uint (.ofNat data.encode.length)).encode ++ data.encode)))
      ⟨timestamp, .fromObject typ data.canonical⟩ := by
  rw [decodeEntry_eq]
  refine (decodeNumber_reads widen "type" typ).andThen ?_
  refine (decodeNumber_reads widen "timestamp" timestamp).andThen ?_
  refine (decodeNumber_reads widen "length" _).andThen fun rest => ?_
  have hmod : data.encode.length % 2 ^ 64 = data.encode.length :=
    Nat.mod_eq_of_lt (by unfold Text.USIZE_MAX at hlen; omega)
  refine (decodeData_eq_ok widen).mpr ⟨htyp, ?_, data.canonical,
    Decodes.decode widen (decodes_value data hfits) rest, rfl⟩
  rw [UInt64.toNat_ofNat', hmod, List.length_append]

theorem encodeEntry_reads (h : entry.Writable) :
    Reads (decodeEntry widen) (encodeEntry entry) entry.canonical := by
  have hreads := encode_reads widen entry.timestamp
    (entry.kind.toObject_fst ▸ h.typ) h.fits h.length
  rw [EntryKind.fromObject_canonical h.named h.modelled] at hreads
  have hencode : encodeEntry entry = _ :=
    (congrArg (· ++ _) (List.append_assoc _ _ _)).trans
      (List.append_assoc _ _ _)
  rw [hencode, List.append_assoc]
  exact hreads

-- == all of them

/-- An entry that can be read is the next one. -/
theorem decodeEntries_cons (h : decodeEntry widen bytes = .ok (entry, rest)) :
    decodeEntries widen (turns + 1) bytes
      = (entry :: (decodeEntries widen turns rest).1,
        (decodeEntries widen turns rest).2) := by
  cases bytes with
  | nil => exact absurd (decodeEntry_less widen h) (Nat.not_lt_zero _)
  | cons b bytes =>
      rw [decodeEntries, h]

/-- What is read of a file is read where there is more of it. -/
theorem decodeEntries_append {turns' : Nat} (h : turns ≤ turns')
    (bytes more : Bytes) :
    (decodeEntries widen turns bytes).1
      <+: (decodeEntries widen turns' (bytes ++ more)).1 := by
  induction turns generalizing turns' bytes with
  | zero => exact List.nil_prefix
  | succ turns ih =>
      obtain ⟨t, rfl⟩ := Nat.exists_eq_add_of_le' h
      rw [← Nat.add_assoc]
      cases hentry : decodeEntry widen bytes with
      | error e =>
          cases bytes with
          | nil => exact List.nil_prefix
          | cons b bytes =>
              rw [decodeEntries, hentry]
              exact List.nil_prefix
      | ok p =>
          have hmore := decodeEntry_extends widen bytes p.1 p.2 hentry more
          rw [decodeEntries_cons widen hentry, decodeEntries_cons widen hmore]
          exact List.prefix_cons_inj p.1 |>.mpr (ih (Nat.le_add_left _ _) p.2)

/-- Entries are read one after the other. -/
theorem decodeEntries_reads {entries : List Entry}
    (h : ∀ entry ∈ entries, entry.Writable)
    (hturns : (entries.flatMap encodeEntry).length ≤ turns) :
    decodeEntries widen turns (entries.flatMap encodeEntry)
      = (entries.map Entry.canonical, none) := by
  induction entries generalizing turns with
  | nil => cases turns <;> rfl
  | cons entry entries ih =>
      have hread := encodeEntry_reads widen (h entry List.mem_cons_self)
        (entries.flatMap encodeEntry)
      have hless := decodeEntry_less widen hread
      rw [List.flatMap_cons] at hturns ⊢
      obtain ⟨t, rfl⟩ : ∃ t, turns = t + 1 := ⟨turns - 1, by omega⟩
      rw [decodeEntries_cons widen hread,
        ih (fun entry he => h entry (List.mem_cons_of_mem _ he)) (by omega),
        List.map_cons]

/-- A file is read as the entries that the size limit lets through, in
their canonical forms; and a file that goes on begins with the entries of
the file that does not. -/
theorem shada_round_trip_law (widen : UInt32 → UInt64) :
    (∀ (entries : List Entry) (maxKbyte : Nat),
        (∀ entry ∈ entries, entry.Writable) →
        decodeFile widen (encodeFile entries maxKbyte)
          = ((entries.filter (letThrough maxKbyte)).map Entry.canonical,
            none))
      ∧ ∀ bytes more : Bytes,
        (decodeFile widen bytes).1
          <+: (decodeFile widen (bytes ++ more)).1 := by
  refine ⟨fun entries maxKbyte h => ?_, fun bytes more => ?_⟩
  · refine decodeEntries_reads widen (fun entry he => ?_) (Nat.le_refl _)
    exact h entry (List.mem_of_mem_filter he)
  · exact decodeEntries_append widen
      (by rw [List.length_append]; omega) bytes more

end

/-- A short string, or binary data, fits. -/
theorem str_fits {s : Tendril} (h : (Utf8.encode s).length < LENGTH_MAX) :
    (Value.str s).Fits := h

theorem bin_fits {b : Bytes} (h : b.length < LENGTH_MAX) :
    (Value.bin b).Fits := h

/-- A mark in a file. -/
def marked : Entry :=
  ⟨5, .mark true 'A' ⟨Utf8.encode ['f'], 3, 0⟩⟩

theorem marked_writable : marked.Writable where
  typ := by decide
  fits := by
    show 3 < LENGTH_MAX ∧ _
    exact ⟨by decide, str_fits (by decide), bin_fits (by decide),
      str_fits (by decide), trivial, str_fits (by decide), trivial, trivial⟩
  length := by decide
  named := by
    rintro pos (_ | ⟨_, ⟨⟩⟩)
    exact ⟨⟨['f'], by decide, rfl⟩, by decide⟩
  modelled := trivial

theorem shada_round_trip_law_mark :
    decodeFile (fun bits => .ofNat bits.toNat) (encodeFile [marked] 1)
        = ([marked], none)
      ∧ (decodeFile (fun bits => .ofNat bits.toNat) [0, 1]).1
        <+: (decodeFile (fun bits => .ofNat bits.toNat) [0, 1, 2]).1 := by
  have hlaw := shada_round_trip_law fun bits => .ofNat bits.toNat
  refine ⟨?_, hlaw.2 [0, 1] [2]⟩
  have hmarked : ∀ entry ∈ [marked], entry.Writable := by
    rintro entry (_ | ⟨_, ⟨⟩⟩)
    exact marked_writable
  have hlet : [marked].filter (letThrough 1) = [marked] := rfl
  rw [hlaw.1 [marked] 1 hmarked, hlet]
  rfl

/-- A substitute string that is kept verbatim. -/
def verbatim : Entry := ⟨0, .unknown TYPE_SUB_STRING (.array [.str ['x']])⟩

/-- It is read as a substitute string. -/
theorem not_shada_round_trip_law_verbatim :
    ¬ ∀ (widen : UInt32 → UInt64) (entries : List Entry) (maxKbyte : Nat),
      (∀ entry ∈ entries, entry.kind.entryType ≠ 0
        ∧ entry.kind.toObject.2.Fits
        ∧ entry.kind.toObject.2.encode.length < LENGTH_MAX
        ∧ ∀ pos ∈ entry.kind.positions, pos.Named) →
      decodeFile widen (encodeFile entries maxKbyte)
        = ((entries.filter (letThrough maxKbyte)).map Entry.canonical,
          none) := by
  intro h
  have hverbatim : ∀ entry ∈ [verbatim], entry.kind.entryType ≠ 0
      ∧ entry.kind.toObject.2.Fits
      ∧ entry.kind.toObject.2.encode.length < LENGTH_MAX
      ∧ ∀ pos ∈ entry.kind.positions, pos.Named := by
    rintro entry (_ | ⟨_, ⟨⟩⟩)
    refine ⟨by decide, ⟨by decide, str_fits (by decide), trivial⟩,
      by decide, ?_⟩
    rintro pos ⟨⟩
  have hread : (([⟨0, .subString ['x']⟩] : List Entry), none)
      = ([verbatim], (none : Option Tendril)) :=
    h (fun bits => .ofNat bits.toNat) [verbatim] 1 hverbatim
  injection hread with hread
  injection hread with hread
  injection hread with _ hread
  cases hread

end Zmax.Shada
