/-
zmax-core/src/text_engine.rs: an identifier through the naming conventions.

Every press finds the words and the style in the text alone. The words come
back when each of the five spellings is of its style and has its sub-word
boundaries where its words start (`Legible`).
-/
import Mathlib.Logic.Function.Iterate
import Zmax.Basic
import Zmax.Lib.Clusters

namespace Zmax.CaseCycle

/-- What `char` knows of cases. -/
structure Casing where
  isUppercase : Char → Bool
  isLowercase : Char → Bool
  isAlphabetic : Char → Bool
  toLowercase : Char → List Char
  toUppercase : Char → List Char

/-- The cases of ASCII. -/
def Casing.ascii : Casing :=
  ⟨Char.isUpper, Char.isLower, Char.isAlpha, fun c => [c.toLower],
    fun c => [c.toUpper]⟩

variable (C : Casing)

def isSep (c : Char) : Bool := c == '_' || c == '-' || c == ' '

/-- What `char` documents: no char is lost, and none becomes a separator. -/
structure Casing.Maps : Prop where
  lower_ne_nil (c : Char) : C.toLowercase c ≠ []
  upper_ne_nil (c : Char) : C.toUppercase c ≠ []
  lower_sep {c d : Char} : isSep c = false → d ∈ C.toLowercase c →
    isSep d = false
  upper_sep {c d : Char} : isSep c = false → d ∈ C.toUppercase c →
    isSep d = false

/-- Whether a sub-word begins at a char behind `p`, with `next` behind it. -/
def begins (p c : Char) (next : Option Char) : Bool :=
  isSep p || (!C.isUppercase p && C.isUppercase c) ||
    (C.isUppercase p && C.isUppercase c && next.any C.isLowercase) ||
    (!p.isDigit && c.isDigit)

/-- Whether a sub-word begins at a position. -/
def boundary (chars : List Char) (i : Nat) : Bool :=
  (chars[i]?).any fun c => !isSep c &&
    (i == 0 || (chars[i - 1]?).any fun p => begins C p c chars[i + 1]?)

def subwordBoundaries (ident : List Char) : List Nat :=
  (List.range ident.length).filter (boundary C ident)

inductive CaseStyle where
  | snake | kebab | camel | pascal | screaming
  deriving DecidableEq

def detectCase (ident : List Char) : CaseStyle :=
  if ident.contains '-' then .kebab
  else if ident.contains '_' then
    let letters := ident.filter C.isAlphabetic
    if !letters.isEmpty && letters.all C.isUppercase then .screaming
    else .snake
  else if ident.head?.any C.isUppercase then .pascal
  else if ident.any C.isUppercase then .camel
  else .snake

/-- The chars of a word, in lower case. -/
def word (s : List Char) : List Char :=
  (s.filter fun c => !isSep c).flatMap C.toLowercase

def splitWords (ident : List Char) : List (List Char) :=
  let bounds := subwordBoundaries C ident
  (bounds.zipIdx.map fun (start, k) =>
    let stop := (bounds[k + 1]?).getD ident.length
    word C ((ident.take stop).drop start)).filter (· ≠ [])

def capitalize : List Char → List Char
  | first :: cs => C.toUppercase first ++ cs
  | [] => []

def renderCase (words : List (List Char)) : CaseStyle → List Char
  | .snake => ['_'].intercalate words
  | .kebab => ['-'].intercalate words
  | .screaming => ['_'].intercalate (words.map (·.flatMap C.toUppercase))
  | .camel => (words.zipIdx.map fun (w, i) =>
      if i = 0 then w else capitalize C w).flatten
  | .pascal => (words.map (capitalize C)).flatten

/-- The style of the next press. -/
def CaseStyle.next : CaseStyle → CaseStyle
  | .snake => .kebab
  | .kebab => .camel
  | .camel => .pascal
  | .pascal => .screaming
  | .screaming => .snake

def cycleIdentifierCase (ident : List Char) : List Char :=
  let words := splitWords C ident
  if words.isEmpty then ident
  else renderCase C words (detectCase C ident).next

-- == spelling

/-- What a style makes of the words one by one. -/
def forms (words : List (List Char)) : CaseStyle → List (List Char)
  | .snake | .kebab => words
  | .screaming => words.map (·.flatMap C.toUppercase)
  | .camel =>
      match words with
      | [] => []
      | w :: rest => w :: rest.map (capitalize C)
  | .pascal => words.map (capitalize C)

/-- What stands between two words. -/
def CaseStyle.sep : CaseStyle → List Char
  | .snake | .screaming => ['_']
  | .kebab => ['-']
  | .camel | .pascal => []

/-- The forms, each with the separator behind it. -/
def spaced (sep : List Char) : List (List Char) → List (List Char)
  | [] => []
  | [w] => [w]
  | w :: rest => (w ++ sep) :: spaced sep rest

attribute [grind =] spaced

/-- In each style the words are spelled so that the style is recognised, that
the sub-words begin where the words do, and that lower case is what it was. -/
structure Legible (words : List (List Char)) : Prop where
  style (s : CaseStyle) : detectCase C (renderCase C words s) = s
  starts (s : CaseStyle) : subwordBoundaries C (renderCase C words s) =
    Clusters.offsets (spaced s.sep (forms C words s))
  lower (s : CaseStyle) :
    (forms C words s).map (·.flatMap C.toLowercase) = words

variable {C} {ident s : List Char} {words : List (List Char)} {st : CaseStyle}

-- == splitting

variable {c : Char}

theorem boundary_not_sep {i : Nat} (hc : ident[i]? = some c)
    (h : boundary C ident i) : isSep c = false := by
  unfold boundary at h
  rw [hc, Option.any_some, Bool.and_eq_true, Bool.not_eq_true'] at h
  exact h.1

theorem subwordBoundaries_eq (h : ∀ c ∈ ident.head?, isSep c = false) :
    subwordBoundaries C ident =
      Clusters.offsets (Clusters.cut (boundary C ident) 0 ident) := by
  rw [Clusters.offsets_cut]
  unfold subwordBoundaries Clusters.starts
  refine List.filter_congr fun k hk => ?_
  rw [Nat.zero_add]
  cases k with
  | succ k => rfl
  | zero =>
      cases ident with
      | nil => cases hk
      | cons c rest =>
          unfold boundary
          rw [List.getElem?_cons_zero, Option.any_some, h c rfl]
          rfl

/-- Each sub-word starts with a char that is kept. -/
theorem head_cut (h : ∀ c ∈ ident.head?, isSep c = false) :
    ∀ q ∈ Clusters.cut (boundary C ident) 0 ident,
      ∃ c ∈ q.head?, isSep c = false := by
  have hcuts : (∀ q ∈ (Clusters.cut (boundary C ident) 0 ident).head?,
      q.head? = ident.head?) ∧
      ∀ q ∈ (Clusters.cut (boundary C ident) 0 ident).tail,
        ∃ c ∈ q.head?, isSep c = false :=
    Clusters.head_cut 0 fun k a ha hbd =>
      boundary_not_sep ha (by rwa [Nat.zero_add] at hbd)
  obtain ⟨hfirst, hrest⟩ := hcuts
  cases hcut : Clusters.cut (boundary C ident) 0 ident with
  | nil => exact nofun
  | cons q rest =>
      rw [hcut] at hfirst hrest
      refine List.forall_mem_cons.mpr ⟨?_, hrest⟩
      have hq := hfirst q rfl
      cases ident with
      | nil => cases hcut
      | cons c ident => exact ⟨c, hq, h c rfl⟩

/-- What is read of a char of an identifier. -/
def read (C : Casing) (c : Char) : List Char :=
  if isSep c then [] else C.toLowercase c

theorem word_eq (s : List Char) : word C s = s.flatMap (read C) := by
  unfold word
  induction s with
  | nil => rfl
  | cons c s ih =>
      rw [List.flatMap_cons, ← ih, read]
      cases h : isSep c with
      | true => rw [List.filter_cons_of_neg (by simp [h])]; rfl
      | false => rw [List.filter_cons_of_pos (by simp [h])]; rfl

theorem read_ne_nil (hC : C.Maps) (h : isSep c = false) : read C c ≠ [] := by
  rw [read, h]
  exact hC.lower_ne_nil c

theorem splitWords_eq (hC : C.Maps) (h : ∀ c ∈ ident.head?, isSep c = false) :
    splitWords C ident =
      (Clusters.cut (boundary C ident) 0 ident).map (word C) := by
  have hslices := Clusters.map_slice_offsets
    (Clusters.cut (boundary C ident) 0 ident)
  rw [Clusters.flatten_cut, ← subwordBoundaries_eq h] at hslices
  have hne : ∀ w ∈ (Clusters.cut (boundary C ident) 0 ident).map (word C),
      decide (w ≠ []) = true := by
    intro w hw
    obtain ⟨q, hq, rfl⟩ := List.mem_map.mp hw
    obtain ⟨c, hc, hsep⟩ := head_cut h q hq
    obtain ⟨t, rfl⟩ := List.head?_eq_some_iff.mp hc
    rw [decide_eq_true_iff, word_eq, List.flatMap_cons]
    exact List.append_ne_nil_of_left_ne_nil (read_ne_nil hC hsep) _
  have hwords : (subwordBoundaries C ident).zipIdx.map (fun (start, k) =>
      word C ((ident.take (((subwordBoundaries C ident)[k + 1]?).getD
        ident.length)).drop start)) =
        (Clusters.cut (boundary C ident) 0 ident).map (word C) := by
    rw [← hslices, List.map_map]
    rfl
  unfold splitWords
  dsimp only
  rw [hwords, List.filter_eq_self.mpr hne]

/-- The words of a spelling are those that were spelled just when the
sub-words begin where they do, and lower case gives them back. -/
theorem splitWords_flatten (hC : C.Maps) {ys : List (List Char)}
    (hy : ∀ y ∈ ys, ∃ c ∈ y.head?, isSep c = false)
    (hlower : (ys.map (word C)).flatten = words.flatten →
      ys.map (word C) = words) :
    splitWords C ys.flatten = words ↔
      subwordBoundaries C ys.flatten = Clusters.offsets ys ∧
        ys.map (word C) = words := by
  have hhead : ∀ c ∈ ys.flatten.head?, isSep c = false := by
    cases ys with
    | nil => exact nofun
    | cons y ys =>
        obtain ⟨c, hc, hsep⟩ := hy y List.mem_cons_self
        obtain ⟨t, rfl⟩ := List.head?_eq_some_iff.mp hc
        rintro d hd
        cases hd
        exact hsep
  have hflat : (Clusters.cut (boundary C ys.flatten) 0 ys.flatten).flatten =
      ys.flatten :=
    Clusters.flatten_cut 0 _
  have hread : ∀ xs : List (List Char),
      xs.map (word C) = xs.map (·.flatMap (read C)) :=
    fun xs => List.map_congr_left fun x _ => word_eq x
  have hwhole : ∀ xs : List (List Char),
      (xs.map (·.flatMap (read C))).flatten = xs.flatten.flatMap (read C) := by
    intro xs
    induction xs with
    | nil => rfl
    | cons x xs ih =>
        rw [List.map_cons, List.flatten_cons, ih, List.flatten_cons,
          List.flatMap_append]
  rw [splitWords_eq hC hhead, subwordBoundaries_eq hhead]
  constructor
  · intro h
    have hsame : ys.map (word C) = words := by
      refine hlower ?_
      rw [← h, hread, hread, hwhole, hwhole, hflat]
    have hnil : ∀ xs : List (List Char),
        (∀ x ∈ xs, ∃ c ∈ x.head?, isSep c = false) →
          ∀ x ∈ xs, ∃ c ∈ x.head?, read C c ≠ [] := by
      intro xs hxs x hx
      obtain ⟨c, hc, hsep⟩ := hxs x hx
      exact ⟨c, hc, read_ne_nil hC hsep⟩
    refine ⟨congrArg Clusters.offsets (Clusters.eq_of_flatMap hflat ?_
      (hnil _ (head_cut hhead)) (hnil _ hy)), hsame⟩
    rw [← hread, ← hread, h, hsame]
  · rintro ⟨h, hsame⟩
    rw [Clusters.eq_of_offsets hflat h, hsame]

-- == spelling

/-- Words have chars, and no separators. -/
def Words (words : List (List Char)) : Prop :=
  ∀ w ∈ words, w ≠ [] ∧ ∀ c ∈ w, isSep c = false

theorem words_splitWords (hC : C.Maps) (ident : List Char) :
    Words (splitWords C ident) := by
  intro w hw
  obtain ⟨hw, hne⟩ := List.mem_filter.mp hw
  obtain ⟨⟨start, k⟩, -, rfl⟩ := List.mem_map.mp hw
  refine ⟨of_decide_eq_true hne, fun c hc => ?_⟩
  obtain ⟨d, hd, hc⟩ := List.mem_flatMap.mp hc
  have hsep := (List.mem_filter.mp hd).2
  exact hC.lower_sep (by simpa using hsep) hc

theorem spaced_cons_cons (sep w v : List Char) (rest : List (List Char)) :
    spaced sep (w :: v :: rest) = (w ++ sep) :: spaced sep (v :: rest) := by
  rfl

theorem intercalate_eq (sep : List Char) (words : List (List Char)) :
    sep.intercalate words = (spaced sep words).flatten := by
  induction words with
  | nil => rfl
  | cons w rest ih =>
      cases rest with
      | nil => rfl
      | cons v rest =>
          rw [List.intercalate_cons_cons, ih, spaced_cons_cons,
            List.flatten_cons]

theorem spaced_nil (words : List (List Char)) : spaced [] words = words := by
  induction words with
  | nil => rfl
  | cons w rest ih =>
      cases rest with
      | nil => rfl
      | cons v rest =>
          rw [spaced_cons_cons, ih, List.append_nil]

theorem renderCase_eq (C : Casing) (words : List (List Char))
    (st : CaseStyle) :
    renderCase C words st = (spaced st.sep (forms C words st)).flatten := by
  cases st with
  | snake => exact intercalate_eq _ _
  | kebab => exact intercalate_eq _ _
  | screaming => exact intercalate_eq _ _
  | pascal => exact congrArg List.flatten (spaced_nil _).symm
  | camel =>
      refine (congrArg List.flatten ?_).trans
        (congrArg List.flatten (spaced_nil _).symm)
      cases words with
      | nil => rfl
      | cons w rest =>
          have hrest : (rest.zipIdx 1).map (fun (v, i) =>
              if i = 0 then v else capitalize C v) =
                (rest.zipIdx 1).map (capitalize C ∘ Prod.fst) := by
            refine List.map_congr_left fun p hp => if_neg ?_
            exact Nat.ne_of_gt (List.le_snd_of_mem_zipIdx hp)
          rw [List.zipIdx_cons, List.map_cons, hrest, ← List.map_map,
            List.zipIdx_map_fst]
          rfl

theorem forms_words (hC : C.Maps) (h : Words words) (st : CaseStyle) :
    Words (forms C words st) := by
  have hupper : ∀ w : List Char, (w ≠ [] ∧ ∀ c ∈ w, isSep c = false) →
      w.flatMap C.toUppercase ≠ [] ∧
        ∀ c ∈ w.flatMap C.toUppercase, isSep c = false := by
    rintro w ⟨hne, hw⟩
    refine ⟨?_, fun c hc => ?_⟩
    · obtain ⟨c, t, rfl⟩ := List.exists_cons_of_ne_nil hne
      rw [List.flatMap_cons]
      exact List.append_ne_nil_of_left_ne_nil (hC.upper_ne_nil c) _
    · obtain ⟨d, hd, hc⟩ := List.mem_flatMap.mp hc
      exact hC.upper_sep (hw d hd) hc
  have hcap : ∀ w : List Char, (w ≠ [] ∧ ∀ c ∈ w, isSep c = false) →
      capitalize C w ≠ [] ∧ ∀ c ∈ capitalize C w, isSep c = false := by
    rintro w ⟨hne, hw⟩
    obtain ⟨c, t, rfl⟩ := List.exists_cons_of_ne_nil hne
    obtain ⟨hc, ht⟩ := List.forall_mem_cons.mp hw
    refine ⟨List.append_ne_nil_of_left_ne_nil (hC.upper_ne_nil c) _,
      fun d hd => ?_⟩
    rcases List.mem_append.mp hd with hd | hd
    · exact hC.upper_sep hc hd
    · exact ht d hd
  cases st with
  | snake => exact h
  | kebab => exact h
  | screaming => exact List.forall_mem_map.mpr fun w hw => hupper w (h w hw)
  | pascal => exact List.forall_mem_map.mpr fun w hw => hcap w (h w hw)
  | camel =>
      cases words with
      | nil => exact nofun
      | cons w rest =>
          obtain ⟨hw, hrest⟩ := List.forall_mem_cons.mp h
          exact List.forall_mem_cons.mpr ⟨hw, List.forall_mem_map.mpr
            fun v hv => hcap v (hrest v hv)⟩

theorem word_of_plain (h : ∀ c ∈ s, isSep c = false) :
    word C s = s.flatMap C.toLowercase := by
  unfold word
  rw [List.filter_eq_self.mpr fun c hc => by rw [h c hc]; rfl]

theorem sep_eq (hc : c ∈ st.sep) : isSep c = true := by
  cases st with
  | snake => exact List.mem_singleton.mp hc ▸ rfl
  | kebab => exact List.mem_singleton.mp hc ▸ rfl
  | screaming => exact List.mem_singleton.mp hc ▸ rfl
  | camel => cases hc
  | pascal => cases hc

/-- Separators are not read. -/
theorem map_word_spaced (h : Words words) (st : CaseStyle) :
    (spaced st.sep words).map (word C) =
      words.map (·.flatMap C.toLowercase) := by
  induction words with
  | nil => rfl
  | cons w rest ih =>
      obtain ⟨hw, hrest⟩ := List.forall_mem_cons.mp h
      cases rest with
      | nil => exact congrArg (· :: []) (word_of_plain hw.2)
      | cons v rest =>
          have hsep : st.sep.filter (fun c => !isSep c) = [] :=
            List.filter_eq_nil_iff.mpr fun c hc => by rw [sep_eq hc]; nofun
          have hword : word C (w ++ st.sep) = w.flatMap C.toLowercase := by
            rw [← word_of_plain hw.2]
            unfold word
            rw [List.filter_append, hsep, List.append_nil]
          exact congrArg₂ List.cons hword (ih hrest)

theorem head_spaced (h : Words words) (sep : List Char) :
    ∀ y ∈ spaced sep words, ∃ c ∈ y.head?, isSep c = false := by
  induction words with
  | nil => exact nofun
  | cons w rest ih =>
      obtain ⟨⟨hne, hw⟩, hrest⟩ := List.forall_mem_cons.mp h
      obtain ⟨c, t, rfl⟩ := List.exists_cons_of_ne_nil hne
      have hc := hw c List.mem_cons_self
      cases rest with
      | nil => exact List.forall_mem_singleton.mpr ⟨c, rfl, hc⟩
      | cons v rest =>
          rw [spaced_cons_cons]
          exact List.forall_mem_cons.mpr ⟨⟨c, rfl, hc⟩, ih hrest⟩

theorem length_le_flatMap {f : Char → List Char} (hf : ∀ c, f c ≠ [])
    (s : List Char) : s.length ≤ (s.flatMap f).length := by
  induction s with
  | nil => exact Nat.zero_le _
  | cons c s ih =>
      have := List.length_pos_iff.mpr (hf c)
      rw [List.flatMap_cons, List.length_append, List.length_cons]
      omega

/-- No word gets shorter. -/
theorem forms_grow (hC : C.Maps) (words : List (List Char))
    (st : CaseStyle) :
    List.Forall₂ (fun w f => w.length ≤ (f.flatMap C.toLowercase).length)
      words (forms C words st) := by
  have hself : ∀ w : List Char,
      w.length ≤ (w.flatMap C.toLowercase).length :=
    length_le_flatMap hC.lower_ne_nil
  have hcap : ∀ w : List Char,
      w.length ≤ ((capitalize C w).flatMap C.toLowercase).length := by
    intro w
    refine Nat.le_trans ?_ (hself _)
    cases w with
    | nil => exact Nat.le_refl _
    | cons c t =>
        have := List.length_pos_iff.mpr (hC.upper_ne_nil c)
        rw [capitalize, List.length_append, List.length_cons]
        omega
  have hmap : ∀ (f : List Char → List Char) (ws : List (List Char)),
      (∀ w, w.length ≤ ((f w).flatMap C.toLowercase).length) →
      List.Forall₂ (fun w f => w.length ≤ (f.flatMap C.toLowercase).length)
        ws (ws.map f) := by
    intro f ws hf
    rw [List.forall₂_map_right_iff]
    exact List.forall₂_same.mpr fun w _ => hf w
  cases st with
  | snake => exact List.forall₂_same.mpr fun w _ => hself w
  | kebab => exact List.forall₂_same.mpr fun w _ => hself w
  | screaming =>
      exact hmap _ words fun w =>
        Nat.le_trans (length_le_flatMap hC.upper_ne_nil w) (hself _)
  | pascal => exact hmap _ words hcap
  | camel =>
      cases words with
      | nil => exact .nil
      | cons w rest => exact .cons (hself w) (hmap _ rest hcap)

/-- Lists that are not shorter, and make up the same, are the same. -/
theorem eq_of_flatten_eq {xs ys : List (List Char)}
    (h : List.Forall₂ (fun x y => x.length ≤ y.length) xs ys)
    (hflat : ys.flatten = xs.flatten) : ys = xs := by
  have hle : ∀ {xs ys : List (List Char)},
      List.Forall₂ (fun x y => x.length ≤ y.length) xs ys →
        xs.flatten.length ≤ ys.flatten.length := by
    intro xs ys h
    induction h with
    | nil => exact Nat.le_refl _
    | cons hxy _ ih =>
        rw [List.flatten_cons, List.flatten_cons, List.length_append,
          List.length_append]
        exact Nat.add_le_add hxy ih
  induction h with
  | nil => rfl
  | @cons x y xs ys hxy hrest ih =>
      rw [List.flatten_cons, List.flatten_cons] at hflat
      have hlen := congrArg List.length hflat
      rw [List.length_append, List.length_append] at hlen
      have hlast := hle hrest
      obtain ⟨rfl, hflat'⟩ := List.append_inj hflat (by omega)
      rw [ih hflat']

/-- The words of a spelling are the words just when its sub-words begin
where they do, and lower case gives them back. -/
theorem splitWords_renderCase (hC : C.Maps) (h : Words words)
    (st : CaseStyle) :
    splitWords C (renderCase C words st) = words ↔
      subwordBoundaries C (renderCase C words st) =
          Clusters.offsets (spaced st.sep (forms C words st)) ∧
        (forms C words st).map (·.flatMap C.toLowercase) = words := by
  have hforms := forms_words hC h st
  rw [renderCase_eq, splitWords_flatten hC (head_spaced hforms _),
    map_word_spaced hforms]
  rw [map_word_spaced hforms]
  refine eq_of_flatten_eq ?_
  rw [List.forall₂_map_right_iff]
  exact forms_grow hC words st

-- == detecting

theorem mem_spaced {sep : List Char} (h : c ∈ (spaced sep words).flatten) :
    c ∈ sep ∨ ∃ w ∈ words, c ∈ w := by
  induction words with
  | nil => cases h
  | cons w rest ih =>
      cases rest with
      | nil => exact .inr ⟨w, List.mem_cons_self, by simpa [spaced] using h⟩
      | cons v rest =>
          rw [spaced_cons_cons, List.flatten_cons, List.mem_append,
            List.mem_append] at h
          rcases h with (h | h) | h
          · exact .inr ⟨w, List.mem_cons_self, h⟩
          · exact .inl h
          · exact (ih h).imp_right fun ⟨x, hx, hc⟩ =>
              ⟨x, List.mem_cons_of_mem _ hx, hc⟩

theorem sep_mem_spaced {sep : List Char} (hc : c ∈ sep)
    (h : 2 ≤ words.length) : c ∈ (spaced sep words).flatten := by
  obtain ⟨w, rest, rfl⟩ := List.exists_cons_of_length_pos
    (Nat.lt_of_lt_of_le Nat.zero_lt_two h)
  obtain ⟨v, rest, rfl⟩ := List.exists_cons_of_length_pos
    (Nat.le_of_succ_le_succ h)
  rw [spaced_cons_cons, List.flatten_cons]
  exact List.mem_append_left _ (List.mem_append_right _ hc)

theorem length_forms (words : List (List Char)) (st : CaseStyle) :
    (forms C words st).length = words.length := by
  cases st with
  | snake => rfl
  | kebab => rfl
  | screaming => exact List.length_map _
  | pascal => exact List.length_map _
  | camel =>
      cases words with
      | nil => rfl
      | cons w rest => exact congrArg (· + 1) (List.length_map _)

/-- Of the separators a spelling of words has those of its style. -/
theorem mem_renderCase (hC : C.Maps) (h : Words words)
    (h2 : 2 ≤ words.length) (hc : isSep c) :
    c ∈ renderCase C words st ↔ c ∈ st.sep := by
  rw [renderCase_eq]
  refine ⟨fun hmem => ?_, fun hmem => sep_mem_spaced hmem (by
    rwa [length_forms])⟩
  rcases mem_spaced hmem with hmem | ⟨w, hw, hmem⟩
  · exact hmem
  · rw [(forms_words hC h st w hw).2 c hmem] at hc
    cases hc

theorem detectCase_cases (hC : C.Maps) (h : Words words)
    (h2 : 2 ≤ words.length) :
    detectCase C (renderCase C words .kebab) = .kebab ∧
      (∀ st, st = .snake ∨ st = .screaming →
        detectCase C (renderCase C words st) = .snake ∨
          detectCase C (renderCase C words st) = .screaming) ∧
      ∀ st, st = .camel ∨ st = .pascal →
        detectCase C (renderCase C words st) = .snake ∨
          detectCase C (renderCase C words st) = .camel ∨
          detectCase C (renderCase C words st) = .pascal := by
  have hmem : ∀ (st : CaseStyle) (c : Char), isSep c →
      (renderCase C words st).contains c = st.sep.contains c := by
    intro st c hc
    rw [Bool.eq_iff_iff, List.contains_iff_mem, List.contains_iff_mem]
    exact mem_renderCase hC h h2 hc
  refine ⟨?_, ?_, ?_⟩
  · unfold detectCase
    rw [hmem _ '-' rfl]
    rfl
  · rintro st hst
    unfold detectCase
    rw [hmem _ '-' rfl, hmem _ '_' rfl]
    have hsep : st.sep.contains '-' = false ∧ st.sep.contains '_' = true := by
      rcases hst with rfl | rfl <;> exact ⟨rfl, rfl⟩
    rw [hsep.1, hsep.2, if_neg Bool.false_ne_true, if_pos rfl]
    dsimp only
    split
    · exact .inr rfl
    · exact .inl rfl
  · rintro st hst
    unfold detectCase
    rw [hmem _ '-' rfl, hmem _ '_' rfl]
    have hsep : st.sep = [] := by
      rcases hst with rfl | rfl <;> rfl
    rw [hsep, List.contains_nil, if_neg Bool.false_ne_true, List.contains_nil,
      if_neg Bool.false_ne_true]
    split
    · exact .inr (.inr rfl)
    · split
      · exact .inr (.inl rfl)
      · exact .inl rfl

-- == cycling

theorem next_injective {s t : CaseStyle} (h : s.next = t.next) : s = t := by
  revert h
  cases s <;> cases t <;> decide

/-- A style comes back after five presses only if the presses go through all
styles, or if the style stays. -/
theorem style_cases {g : CaseStyle → CaseStyle} (hkebab : g .kebab = .camel)
    (hlow : ∀ st, st = .snake ∨ st = .screaming →
      g st = .kebab ∨ g st = .snake)
    (hjoin : ∀ st, st = .camel ∨ st = .pascal →
      g st = .kebab ∨ g st = .pascal ∨ g st = .screaming)
    {a : CaseStyle} (h : g^[5] a = a) :
    (∀ s, g s = s.next) ∨ a = .pascal ∧ g .pascal = .pascal ∨
      a = .snake ∧ g .snake = .snake := by
  have hstep : g (g (g (g (g a)))) = a := h
  rcases hjoin .camel (.inl rfl) with hcamel | hcamel | hcamel <;>
    rcases hjoin .pascal (.inr rfl) with hpascal | hpascal | hpascal <;>
    rcases hlow .snake (.inl rfl) with hsnake | hsnake <;>
    rcases hlow .screaming (.inr rfl) with hscreaming | hscreaming <;>
    cases a <;>
    simp only [hkebab, hcamel, hpascal, hsnake, hscreaming,
      reduceCtorEq] at hstep
  -- Of the tables that are left only one moves.
  all_goals first
    | exact .inr (.inr ⟨rfl, hsnake⟩)
    | exact .inr (.inl ⟨rfl, hpascal⟩)
    | exact .inl fun s => by cases s <;> assumption

theorem cycleIdentifierCase_eq (h : splitWords C ident = words)
    (hne : words ≠ []) :
    cycleIdentifierCase C ident =
      renderCase C words (detectCase C ident).next := by
  unfold cycleIdentifierCase
  rw [h]
  exact if_neg (by rwa [List.isEmpty_iff])

theorem Legible.cycle (h : Legible C words) (hC : C.Maps)
    (hwords : Words words) (hne : words ≠ []) (st : CaseStyle) :
    splitWords C (renderCase C words st) = words ∧
      cycleIdentifierCase C (renderCase C words st) =
        renderCase C words st.next := by
  have hsplit := (splitWords_renderCase hC hwords st).mpr
    ⟨h.starts st, h.lower st⟩
  exact ⟨hsplit, by rw [cycleIdentifierCase_eq hsplit hne, h.style]⟩

/-- Five presses keep the words of an identifier and give it back just when
its words can be read in all five styles, or when its Pascal spelling looks
like a camel one, or its snake spelling like a screaming one, so that no press
changes it. -/
theorem cycle_identifier_case_law (hC : C.Maps) (ident : List Char)
    (st : CaseStyle) (h2 : 2 ≤ (splitWords C ident).length)
    (hst : ident = renderCase C (splitWords C ident) st) :
    ((∀ k < 5, splitWords C ((cycleIdentifierCase C)^[k + 1] ident) =
        splitWords C ((cycleIdentifierCase C)^[k] ident)) ∧
      (cycleIdentifierCase C)^[5] ident = ident) ↔
    Legible C (splitWords C ident) ∨
      (ident = renderCase C (splitWords C ident) .pascal ∧
        detectCase C ident = .camel) ∨
      (ident = renderCase C (splitWords C ident) .snake ∧
        detectCase C ident = .screaming) := by
  have hwords := words_splitWords hC ident
  have hne : splitWords C ident ≠ [] := by
    intro h
    rw [h] at h2
    exact absurd h2 (by decide)
  generalize hws : splitWords C ident = words at *
  have hfirst := cycleIdentifierCase_eq hws hne
  have hfixed : ∀ {s}, ident = renderCase C words s →
      (detectCase C ident).next = s →
      (∀ k < 5, splitWords C ((cycleIdentifierCase C)^[k + 1] ident) =
        splitWords C ((cycleIdentifierCase C)^[k] ident)) ∧
      (cycleIdentifierCase C)^[5] ident = ident := by
    intro s hident hnext
    have hstay : cycleIdentifierCase C ident = ident := by
      rw [hfirst, hnext, ← hident]
    refine ⟨fun k _ => ?_, Function.iterate_fixed hstay 5⟩
    rw [Function.iterate_fixed hstay, Function.iterate_fixed hstay]
  constructor
  · rintro ⟨hkeep, hback⟩
    have hsame : ∀ k ≤ 5,
        splitWords C ((cycleIdentifierCase C)^[k] ident) = words := by
      intro k hk
      induction k with
      | zero => exact hws
      | succ k ih => rw [hkeep k hk, ih (Nat.le_of_succ_le hk)]
    -- From the first press on the text is the words in some style.
    obtain ⟨g, hg⟩ : ∃ g : CaseStyle → CaseStyle,
        g = fun s => (detectCase C (renderCase C words s)).next := ⟨_, rfl⟩
    have hrun : ∀ k ≤ 5, (cycleIdentifierCase C)^[k + 1] ident =
        renderCase C words (g^[k] (detectCase C ident).next) := by
      intro k hk
      induction k with
      | zero => exact hfirst
      | succ k ih =>
          have hk' := Nat.le_of_succ_le hk
          rw [Function.iterate_succ_apply',
            cycleIdentifierCase_eq (hsame _ hk) hne, ih hk',
            Function.iterate_succ_apply', hg]
    have hlast :
        ident = renderCase C words (g^[4] (detectCase C ident).next) := by
      rw [← hrun 4 (by decide), hback]
    have hperiod : g^[5] (detectCase C ident).next =
        (detectCase C ident).next := by
      rw [Function.iterate_succ_apply', hg]
      dsimp only
      rw [← hg, ← hlast]
    obtain ⟨hkebab, hlow, hjoin⟩ := detectCase_cases hC hwords h2
    have hgkebab : g .kebab = .camel := by
      rw [hg]
      exact congrArg CaseStyle.next hkebab
    have hglow : ∀ s, s = .snake ∨ s = .screaming →
        g s = .kebab ∨ g s = .snake := by
      intro s hs
      rw [hg]
      exact (hlow s hs).imp (congrArg CaseStyle.next)
        (congrArg CaseStyle.next)
    have hgjoin : ∀ s, s = .camel ∨ s = .pascal →
        g s = .kebab ∨ g s = .pascal ∨ g s = .screaming := by
      intro s hs
      rw [hg]
      exact (hjoin s hs).imp (congrArg CaseStyle.next)
        (Or.imp (congrArg CaseStyle.next) (congrArg CaseStyle.next))
    rcases style_cases hgkebab hglow hgjoin hperiod with
      hnext | ⟨ha, hstay⟩ | ⟨ha, hstay⟩
    · have hdetect : ∀ s, detectCase C (renderCase C words s) = s := by
        intro s
        refine next_injective ?_
        rw [← hnext s, hg]
      have hreach : ∀ a s : CaseStyle, ∃ k ≤ 4, CaseStyle.next^[k] a = s := by
        intro a s
        cases a <;> cases s <;> decide
      have hsplit : ∀ s, splitWords C (renderCase C words s) = words := by
        intro s
        obtain ⟨k, hk, rfl⟩ := hreach (detectCase C ident).next s
        have hpow : CaseStyle.next^[k] = g^[k] := by
          rw [show g = CaseStyle.next from funext hnext]
        rw [hpow, ← hrun k (Nat.le_succ_of_le hk)]
        exact hsame _ (Nat.succ_le_succ hk)
      have hlegible := fun s =>
        (splitWords_renderCase hC hwords s).mp (hsplit s)
      exact .inl ⟨hdetect, fun s => (hlegible s).1, fun s => (hlegible s).2⟩
    · refine .inr (.inl ⟨?_, next_injective ha⟩)
      rw [ha, Function.iterate_fixed hstay] at hlast
      exact hlast
    · refine .inr (.inr ⟨?_, next_injective ha⟩)
      rw [ha, Function.iterate_fixed hstay] at hlast
      exact hlast
  · rintro (h | ⟨hident, hdetect⟩ | ⟨hident, hdetect⟩)
    · have hrun : ∀ k, (cycleIdentifierCase C)^[k] ident =
          renderCase C words (CaseStyle.next^[k] st) := by
        intro k
        induction k with
        | zero => exact hst
        | succ k ih =>
            rw [Function.iterate_succ_apply', ih,
              (h.cycle hC hwords hne _).2, Function.iterate_succ_apply']
      refine ⟨fun k _ => ?_, ?_⟩
      · rw [hrun, hrun, (h.cycle hC hwords hne _).1,
          (h.cycle hC hwords hne _).1]
      · rw [hrun, hst]
        congr 1
        cases st <;> rfl
    · exact hfixed hident (by rw [hdetect]; rfl)
    · exact hfixed hident (by rw [hdetect]; rfl)

theorem isSep_val (h : isSep c) :
    c.val.toNat = 95 ∨ c.val.toNat = 45 ∨ c.val.toNat = 32 := by
  unfold isSep at h
  rw [Bool.or_eq_true, Bool.or_eq_true, beq_iff_eq, beq_iff_eq,
    beq_iff_eq] at h
  rcases h with (rfl | rfl) | rfl
  · exact .inl rfl
  · exact .inr (.inl rfl)
  · exact .inr (.inr rfl)

theorem isSep_toLower (h : isSep c = false) : isSep c.toLower = false := by
  unfold Char.toLower
  split
  · next hc =>
      refine Bool.eq_false_iff.mpr fun hsep => ?_
      have hval := isSep_val hsep
      have hlow : 65 ≤ c.val.toNat := UInt32.le_iff_toNat_le.mp hc.1
      have hhigh : c.val.toNat ≤ 90 := UInt32.le_iff_toNat_le.mp hc.2
      have hadd : (c.val + ('a'.val - 'A'.val)).toNat =
          (c.val.toNat + 32) % 2 ^ 32 := UInt32.toNat_add ..
      dsimp only at hval
      omega
  · exact h

theorem isSep_toUpper (h : isSep c = false) : isSep c.toUpper = false := by
  unfold Char.toUpper
  split
  · next hc =>
      refine Bool.eq_false_iff.mpr fun hsep => ?_
      have hval := isSep_val hsep
      have hlow : 97 ≤ c.val.toNat := UInt32.le_iff_toNat_le.mp hc.1
      have hhigh : c.val.toNat ≤ 122 := UInt32.le_iff_toNat_le.mp hc.2
      have hadd : (c.val + ('A'.val - 'a'.val)).toNat =
          (c.val.toNat + 4294967264) % 2 ^ 32 := UInt32.toNat_add ..
      dsimp only at hval
      omega
  · exact h

theorem Casing.ascii_maps : Casing.ascii.Maps where
  lower_ne_nil := fun _ => List.cons_ne_nil _ _
  upper_ne_nil := fun _ => List.cons_ne_nil _ _
  lower_sep := fun h hd => List.mem_singleton.mp hd ▸ isSep_toLower h
  upper_sep := fun h hd => List.mem_singleton.mp hd ▸ isSep_toUpper h

/-- A camel identifier of two words, in all styles. -/
theorem cycle_identifier_case_law_camel :
    (cycleIdentifierCase .ascii)^[5] "fooBar".toList = "fooBar".toList := by
  have hlegible : Legible .ascii ["foo".toList, "bar".toList] :=
    ⟨by rintro (_ | _ | _ | _ | _) <;> rfl,
      by rintro (_ | _ | _ | _ | _) <;> rfl,
      by rintro (_ | _ | _ | _ | _) <;> rfl⟩
  exact ((cycle_identifier_case_law Casing.ascii_maps "fooBar".toList .camel
    (by decide) rfl).mpr (.inl hlegible)).2

/-- Two words of one letter are one word in Pascal case. -/
theorem not_cycle_identifier_case_law :
    (splitWords .ascii "a_b".toList).length = 2 ∧
      "a_b".toList =
        renderCase .ascii (splitWords .ascii "a_b".toList) .snake ∧
      (cycleIdentifierCase .ascii)^[5] "a_b".toList ≠ "a_b".toList := by
  decide

end Zmax.CaseCycle
