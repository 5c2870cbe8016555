/-
An entry is made of its data as it was.

The keys of a map that have their defaults are left out, and reading puts
these in again (`mapGet_unless`, `boolKey_flag`). So what is read from the
canonical form of the data of an entry is the canonical form of the entry
(`fromObject_canonical`), unless it is kept verbatim and yet modelled.
-/
import Zmax.Term.Shada.File

namespace Zmax.Shada

-- == collections

namespace Value

theorem canonicalItems_eq (items : List Value) :
    canonicalItems items = items.map canonical := by
  induction items with
  | nil => rfl
  | cons item items ih => rw [canonicalItems, ih, List.map_cons]

end Value

/-- The map that is read where one is written. -/
def readMap (pairs : List (Value × Value)) : Value :=
  (Value.map pairs).canonical

section

variable (key other : String) (value : Value) (pairs : List (Value × Value))

theorem mapGet_pair : (readMap (pair key value :: pairs)).mapGet other.toList
    = if key = other then some value.canonical
      else (readMap pairs).mapGet other.toList := by
  unfold readMap
  rw [Value.canonical, Value.canonical, pair, Value.canonicalPairs,
    Value.canonical, Value.mapGet, Value.mapGet, List.find?_cons]
  by_cases h : key = other
  · rw [if_pos h, h]
    simp [Value.asText]
  · have hne : key.toList ≠ other.toList := fun heq =>
      h (String.toList_inj.mp heq)
    have hbeq : ((Value.str key.toList).asText == some other.toList)
        = false := by
      rw [Value.asText]
      simpa using hne
    rw [if_neg h, hbeq]

/-- A key that has its default is left out. -/
theorem mapGet_unless (isDefault : Bool) :
    (readMap (unlessDefault isDefault key value ++ pairs)).mapGet
        other.toList
      = if isDefault = false ∧ key = other then some value.canonical
        else (readMap pairs).mapGet other.toList := by
  cases isDefault with
  | true => simp [unlessDefault]
  | false =>
      rw [unlessDefault, if_neg (by simp), List.singleton_append, mapGet_pair]
      simp

theorem mapGet_unless_last (isDefault : Bool) :
    (readMap (unlessDefault isDefault key value)).mapGet other.toList
      = if isDefault = false ∧ key = other then some value.canonical
        else none := by
  have h := mapGet_unless key other value [] isDefault
  rwa [List.append_nil] at h

end

theorem asText_textValue (s : Tendril) :
    (textValue s).canonical.asText = some s := by
  rw [textValue, Value.canonical, Value.asText, Utf8.lossy_encode]

-- == records

/-- A flag is read with its default as it was written. -/
theorem boolKey_flag (flag default : Bool) :
    ((if (flag == default) = false then some (Value.bool flag)
      else none).bind Value.asBool).getD default = flag := by
  cases flag <;> cases default <;> rfl

/-- A number, whether it is read as an unsigned one or not. -/
theorem asI64_canonical (n : Int64) :
    (Value.int n).canonical.asI64 = some n := by
  rw [Value.canonical]
  by_cases hn : 0 ≤ n.toInt
  · have hlt : n.toInt < 0x8000000000000000 := n.toInt_lt
    have htoNat : (UInt64.ofNat n.toInt.toNat).toNat = n.toInt.toNat := by
      rw [UInt64.toNat_ofNat', Nat.mod_eq_of_lt (by omega)]
    have hback : Int64.ofNat n.toInt.toNat = n := by
      rw [← Int64.ofInt_eq_ofNat, Int.toNat_of_nonneg hn, Int64.ofInt_toInt]
    rw [if_pos hn, Value.asI64, htoNat, if_pos (by omega), hback]
  · rw [if_neg hn, Value.asI64]

theorem offset_key (n : Int64) :
    ((if (n == 0) = false then some (Value.int n).canonical
      else none).bind Value.asI64).getD 0 = n := by
  by_cases hn : n = 0
  · rw [if_neg (by simp [hn]), hn]
    rfl
  · rw [if_pos (by simp [hn]), Option.bind_some, asI64_canonical]
    rfl

/-- A number is read with its default as it was written. -/
theorem numKey_default (n default : UInt64) :
    ((if (n == default) = false then some (Value.uint n)
      else none).bind Value.asU64).getD default = n := by
  by_cases hn : n = default
  · rw [if_neg (by simp [hn]), hn]
    rfl
  · rw [if_pos (by simp [hn])]
    rfl

theorem searchPatternFrom_toPairs (p : SearchPattern) :
    EntryKind.searchPatternFrom (readMap p.toPairs)
      = some (.searchPattern p) := by
  have hpairs : p.toPairs
      = pair "sp" (textValue p.pattern)
        :: (unlessDefault (p.magic == true) "sm" (.bool p.magic)
        ++ (unlessDefault (p.smartcase == false) "sc" (.bool p.smartcase)
        ++ (unlessDefault (p.lineOffset == true) "sl" (.bool p.lineOffset)
        ++ (unlessDefault (p.endOffset == false) "se" (.bool p.endOffset)
        ++ (unlessDefault (p.lastUsed == false) "su" (.bool p.lastUsed)
        ++ (unlessDefault (p.substitute == false) "ss" (.bool p.substitute)
        ++ (unlessDefault (p.hlsearch == false) "sh" (.bool p.hlsearch)
        ++ (unlessDefault (p.backward == false) "sb" (.bool p.backward)
        ++ unlessDefault (p.offset == 0) "so" (.int p.offset))))))))) := by
    unfold SearchPattern.toPairs
    simp only [List.append_assoc]
    rfl
  unfold EntryKind.searchPatternFrom boolKey
  rw [hpairs, show ['s', 'p'] = "sp".toList from rfl,
    show ['s', 'o'] = "so".toList from rfl]
  simp only [mapGet_pair, mapGet_unless, mapGet_unless_last, offset_key,
    String.reduceEq, and_true, and_false, if_true, if_false]
  simp only [Value.canonical, boolKey_flag]
  simp only [Option.bind_eq_bind, Option.bind_some, asText_textValue]
  rfl

theorem historyFrom_toObject (kind : UInt64) (line : Tendril)
    (sep : Option UInt8) :
    EntryKind.historyFrom
        (EntryKind.history kind line sep).toObject.2.canonical
      = some (.history kind line sep) := by
  cases sep with
  | none =>
      simp [EntryKind.toObject, EntryKind.historyFrom, Value.canonical,
        Value.canonicalItems, Value.asArray, Value.asU64, asText_textValue]
  | some sep =>
      have hlt : sep.toNat < 256 := sep.toNat_lt
      simp [EntryKind.toObject, EntryKind.historyFrom, Value.canonical,
        Value.canonicalItems, Value.asArray, Value.asU64, asText_textValue,
        hlt]

theorem charFromU32_charValue (c : Char) :
    charFromU32 (.ofNat c.toNat) = some c := by
  have hlt : c.toNat < 0x100000000 := c.val.toNat_lt
  have htoNat : (UInt64.ofNat c.toNat).toNat = c.toNat := by
    rw [UInt64.toNat_ofNat', Nat.mod_eq_of_lt (by omega)]
  have hvalid : c.toNat.isValidChar := c.valid
  unfold charFromU32
  rw [htoNat, Nat.mod_eq_of_lt hlt, if_pos hvalid, Char.ofNat_toNat]

/-- The lines of a register, and how many of them each value has. -/
theorem valueLines_key (lens : List UInt64) :
    (((if decide (lens.length ≤ 1) = false then
        some (Value.array (lens.map Value.uint)).canonical
      else none).bind Value.asArray).map fun lens =>
        lens.map fun v => v.asU64.getD 0).getD []
      = if lens.length ≤ 1 then [] else lens := by
  by_cases hlens : lens.length ≤ 1
  · simp [hlens]
  · simp [hlens, Value.canonical, Value.canonicalItems_eq, Value.asArray,
      Value.asU64, Function.comp_def]

theorem registerFrom_toPairs (r : Register) :
    EntryKind.registerFrom (readMap r.toPairs)
      = some (EntryKind.register r).canonical := by
  have hpairs : r.toPairs
      = pair "n" (charValue r.name)
        :: pair "rc" (.array (r.contents.map textValue))
        :: (unlessDefault (r.kind == 0) "rt" (.uint r.kind)
        ++ (unlessDefault (r.width == 0) "rw" (.uint r.width)
        ++ (unlessDefault (!r.unnamed) "ru" (.bool true)
        ++ unlessDefault (r.valueLines.length ≤ 1) "zv"
          (.array (r.valueLines.map Value.uint))))) := by
    unfold Register.toPairs
    simp only [List.append_assoc]
    rfl
  unfold EntryKind.registerFrom numKey boolKey
  rw [hpairs, show ['n'] = "n".toList from rfl,
    show ['r', 'c'] = "rc".toList from rfl,
    show ['z', 'v'] = "zv".toList from rfl]
  simp only [mapGet_pair, mapGet_unless, mapGet_unless_last, valueLines_key,
    String.reduceEq, and_true, and_false, if_true, if_false]
  have hunnamed : ((if (!r.unnamed) = false then
        some (Value.bool true).canonical
      else none).bind Value.asBool).getD false = r.unnamed := by
    cases r.unnamed <;> rfl
  have hcontents : r.contents.map ((fun v => v.asText.getD [])
      ∘ Value.canonical ∘ textValue) = r.contents := by
    refine (List.map_congr_left fun s _ => ?_).trans (List.map_id _)
    simp [asText_textValue]
  have hname (c : Char) :
      (charValue c).canonical.asU64 = some (.ofNat c.toNat) := rfl
  have harray (items : List Value) : (Value.array items).canonical.asArray
      = some (items.map Value.canonical) :=
    congrArg some (Value.canonicalItems_eq items)
  rw [hunnamed]
  simp only [hname, harray, Option.bind_eq_bind, Option.bind_some,
    charFromU32_charValue, List.map_map]
  simp only [Value.canonical, numKey_default]
  rw [hcontents]
  rfl

-- == positions

/-- The name of a mark, which is left out where it is the default one. -/
def namePairs (name : Option Char) : List (Value × Value) :=
  match name.filter (· != '"') with
  | some name => [pair "n" (charValue name)]
  | none => []

theorem position_pairs (pos : Position) (name : Option Char) :
    pos.toPairs name = pair "f" (fileValue pos.file)
      :: (unlessDefault (pos.line == 1) "l" (.uint pos.line)
      ++ (unlessDefault (pos.col == 0) "c" (.uint pos.col)
      ++ namePairs name)) := by
  unfold Position.toPairs
  simp only [List.append_assoc]
  rfl

theorem namePairs_eq (name : Option Char) :
    namePairs name = match name with
      | some name => unlessDefault (name == '"') "n" (charValue name)
      | none => [] := by
  cases name with
  | none => rfl
  | some c =>
      unfold namePairs unlessDefault
      by_cases hc : c = '"'
      · rw [hc]
        rfl
      · simp [Option.filter, hc]

theorem mapGet_namePairs (name : Option Char) {other : String}
    (h : "n" ≠ other) :
    (readMap (namePairs name)).mapGet other.toList = none := by
  rw [namePairs_eq]
  cases name with
  | none => rfl
  | some c => rw [mapGet_unless_last, if_neg fun hn => h hn.2]

theorem mapGet_name (name : Char) :
    (readMap (namePairs (some name))).mapGet "n".toList
      = if (name == '"') = false then some (charValue name) else none := by
  rw [namePairs_eq]
  simp only [mapGet_unless_last, and_true]
  rfl

/-- A position with a name and a line is read as it was written. -/
theorem fromValue_toPairs {pos : Position} (h : pos.Named)
    (name : Option Char) :
    Position.fromValue (readMap (pos.toPairs name)) = some pos := by
  obtain ⟨file, hne, hfile⟩ := h.file
  have hline : max pos.line 1 = pos.line := by
    show (if pos.line ≤ 1 then 1 else pos.line) = pos.line
    by_cases hle : pos.line ≤ 1
    · have hge := h.line
      have htoNat : pos.line.toNat ≤ 1 := UInt64.le_iff_toNat_le.mp hle
      rw [if_pos hle]
      exact UInt64.toNat_inj.mp (show 1 = pos.line.toNat by omega)
    · rw [if_neg hle]
  have hempty : file.isEmpty = false := by simpa using hne
  unfold Position.fromValue
  rw [position_pairs, show ['f'] = "f".toList from rfl,
    show ['l'] = "l".toList from rfl, show ['c'] = "c".toList from rfl]
  simp only [mapGet_pair, mapGet_unless, String.reduceEq, and_true,
    and_false, if_true, if_false,
    mapGet_namePairs name (show "n" ≠ "l" by decide),
    mapGet_namePairs name (show "n" ≠ "c" by decide)]
  simp only [Value.canonical, numKey_default, fileValue, hfile,
    Utf8.lossy_encode, Option.bind_some, asText_textValue, hempty, hline]
  rw [← hfile]
  rfl

theorem nameFromValue_toPairs (pos : Position) (name : Char) :
    Position.nameFromValue (readMap (pos.toPairs (some name))) = name := by
  unfold Position.nameFromValue
  rw [position_pairs, show ['n'] = "n".toList from rfl]
  simp only [mapGet_pair, mapGet_unless, String.reduceEq, and_false,
    if_false, mapGet_name]
  by_cases hname : name = '"'
  · rw [hname]
    rfl
  · have hbeq : (name == '"') = false := by simpa using hname
    rw [if_pos hbeq, Option.bind_some, charValue, Value.asU64,
      Option.getD_some, charFromU32_charValue]
    rfl

-- == entries

namespace EntryKind

theorem toObject_fst (kind : EntryKind) :
    kind.toObject.1 = kind.entryType := by
  cases kind with
  | mark isGlobal name pos => cases isGlobal <;> rfl
  | header | searchPattern | subString | history | register | jump | change
  | bufferList | unknown => rfl

theorem modelFrom_header (data : Value) : modelFrom TYPE_HEADER data
    = some (.header (textKey data "generator") (textKey data "version")
        (textKey data "encoding") (numKey data "max_kbyte" 0)
        (numKey data "pid" 0)) := rfl

theorem modelFrom_mark (isGlobal : Bool) (data : Value) :
    modelFrom (if isGlobal then TYPE_GLOBAL_MARK else TYPE_LOCAL_MARK) data
      = (Position.fromValue data).map
        (.mark isGlobal (Position.nameFromValue data)) := by
  cases isGlobal <;> rfl

theorem header_toObject (generator version encoding : Tendril)
    (maxKbyte pid : UInt64) :
    modelFrom TYPE_HEADER
        (header generator version encoding maxKbyte pid).toObject.2.canonical
      = some (header generator version encoding maxKbyte pid) := by
  rw [modelFrom_header, toObject, ← readMap]
  unfold textKey numKey
  simp only [mapGet_pair, String.reduceEq, if_true, if_false,
    Option.bind_some, asText_textValue, Option.getD_some]
  rfl

theorem filterMap_positions {buffers : List Position}
    (h : ∀ pos ∈ buffers, pos.Named) :
    (buffers.map fun pos => readMap (pos.toPairs none)).filterMap
      Position.fromValue = buffers := by
  induction buffers with
  | nil => rfl
  | cons pos buffers ih =>
      rw [List.map_cons, List.filterMap_cons,
        fromValue_toPairs (h pos List.mem_cons_self),
        ih fun pos hpos => h pos (List.mem_cons_of_mem _ hpos)]

/-- What is read from the data of an entry is its canonical form. -/
theorem fromObject_canonical {kind : EntryKind}
    (hnamed : ∀ pos ∈ kind.positions, pos.Named)
    (hmodelled : kind.Modelled) :
    fromObject kind.toObject.1 kind.toObject.2.canonical
      = kind.canonical := by
  unfold fromObject
  cases kind with
  | header generator version encoding maxKbyte pid =>
      exact congrArg (Option.getD · _) (header_toObject _ _ _ _ _)
  | searchPattern p =>
      exact congrArg (Option.getD · _) (searchPatternFrom_toPairs p)
  | subString s =>
      show (subStringFrom _).getD _ = _
      have hsub : subStringFrom (subString s).toObject.2.canonical
          = some (.subString s) := by
        simp [subStringFrom, toObject, Value.canonical, Value.canonicalItems,
          Value.asArray, asText_textValue]
      rw [hsub]
      rfl
  | history kind line sep =>
      exact congrArg (Option.getD · _) (historyFrom_toObject kind line sep)
  | register r =>
      exact congrArg (Option.getD · _) (registerFrom_toPairs r)
  | mark isGlobal name pos =>
      have hpos := hnamed pos List.mem_cons_self
      rw [toObject, modelFrom_mark, ← readMap, fromValue_toPairs hpos,
        nameFromValue_toPairs]
      rfl
  | jump pos =>
      have hpos := hnamed pos List.mem_cons_self
      exact congrArg (fun found => (Option.map jump found).getD _)
        (fromValue_toPairs hpos none)
  | change pos =>
      have hpos := hnamed pos List.mem_cons_self
      exact congrArg (fun found => (Option.map change found).getD _)
        (fromValue_toPairs hpos none)
  | bufferList buffers =>
      rw [toObject, Value.canonical, Value.canonicalItems_eq, List.map_map]
      exact congrArg bufferList (filterMap_positions hnamed)
  | unknown typ data =>
      show (modelFrom typ data.canonical).getD _ = _
      rw [hmodelled]
      rfl

end EntryKind

end Zmax.Shada
