/-
zmax-core/src/region_ops.rs: `splice_sexp` and `slurp_forward`.

Balanced text leaves the stack of awaited closers as it found it. The two
depth scans count that stack (`opener_skip`, `closer_skip`), so they end on
the pair around the cursor. What `slurp_forward` takes in is a sibling unless
the parent's closer comes next.
-/
import Zmax.Core.Text

namespace Zmax.RegionOps

open Text (isWhitespace)

-- == source

def closeFor : Char → Option Char
  | '(' => some ')'
  | '[' => some ']'
  | '{' => some '}'
  | _ => none

def isClose (c : Char) : Bool := c == ')' || c == ']' || c == '}'

/-- The loop of `matching_close`, over the chars from index `i`. -/
def closer : Int → Nat → List Char → Option Nat
  | _, _, [] => none
  | depth, i, c :: rest =>
      if (closeFor c).isSome then closer (depth + 1) (i + 1) rest
      else if isClose c then
        if depth - 1 = 0 then some i else closer (depth - 1) (i + 1) rest
      else closer depth (i + 1) rest

/-- `opening` is an index inside the text. -/
def matchingClose (chars : List Char) (opening : Nat) : Option Nat :=
  (chars[opening]?.bind closeFor).bind fun _ =>
    closer 0 opening (chars.drop opening)

/-- The loop of `enclosing`, over the chars in front of the cursor, the last
one first. -/
def opener : Int → List Char → Option Nat
  | _, [] => none
  | depth, c :: front =>
      if isClose c then opener (depth + 1) front
      else if (closeFor c).isSome then
        if depth = 0 then some front.length else opener (depth - 1) front
      else opener depth front

def enclosing (chars : List Char) (cursor : Nat) : Option (Nat × Nat) :=
  (opener 0 (chars.take cursor).reverse).bind fun o =>
    (matchingClose chars o).map fun c => (o, c)

def spliceSexp (chars : List Char) (cursor : Nat) : Option (List Char) :=
  (enclosing chars cursor).map fun (o, c) =>
    (chars.zipIdx.filter fun (_, i) => i != o && i != c).map Prod.fst

/-- A char of an atom. -/
def isAtom (c : Char) : Bool :=
  !isWhitespace c && (closeFor c).isNone && !isClose c

/-- The last index of the form that starts at `i`. -/
def formEnd (chars : List Char) (i : Nat) : Option Nat :=
  if (chars[i]?.bind closeFor).isSome then matchingClose chars i
  else some (i + ((chars.drop i).takeWhile isAtom).length - 1)

def slurpForward (chars : List Char) (cursor : Nat) : Option (List Char) :=
  (enclosing chars cursor).bind fun (_, close) =>
    let i := close + 1 +
      ((chars.drop (close + 1)).takeWhile isWhitespace).length
    if chars.length ≤ i then none
    else (formEnd chars i).map fun stop =>
      chars.zipIdx.flatMap fun (ch, idx) =>
        if idx = close then []
        else if idx = stop then ch :: chars[close]?.toList
        else [ch]

attribute [grind =] closer opener

-- == balance

/-- A char and the closers that are awaited; none where it is a closer and
not the one awaited. -/
def await (waits : List Char) (c : Char) : Option (List Char) :=
  match closeFor c with
  | some d => some (d :: waits)
  | none =>
      if isClose c then
        match waits with
        | d :: outer => if c = d then some outer else none
        | [] => none
      else some waits

/-- The closers that are awaited behind a text. -/
def awaited (waits s : List Char) : Option (List Char) := s.foldlM await waits

/-- The delimiters are balanced and properly nested. -/
def Balanced (s : List Char) : Prop := awaited [] s = some []

instance : DecidablePred Balanced := fun s =>
  inferInstanceAs (Decidable (awaited [] s = some []))

/-- The delimiters of a list. -/
structure Pair (s : List Char) (o c : Nat) : Prop where
  split : ∃ front op inner cl rest, s = front ++ op :: (inner ++ cl :: rest) ∧
    closeFor op = some cl ∧ Balanced inner ∧ front.length = o ∧
      o + 1 + inner.length = c

/-- The cursor is inside the list. -/
def Encloses (s : List Char) (cursor o c : Nat) : Prop :=
  Pair s o c ∧ o < cursor ∧ cursor ≤ c

def Innermost (s : List Char) (cursor o c : Nat) : Prop :=
  Encloses s cursor o c ∧ ∀ o' c', Encloses s cursor o' c' → o' ≤ o

/-- An atom, which what comes next does not continue, or a list. -/
inductive Form (after : List Char) : List Char → Prop
  | atom {f : List Char} : f ≠ [] → (∀ c ∈ f, isAtom c) →
      (∀ c ∈ after.head?, isAtom c = false) → Form after f
  | list {op cl : Char} {inner : List Char} : closeFor op = some cl →
      Balanced inner → Form after (op :: (inner ++ [cl]))

/-- The text behind a list starts with blanks and a sibling. -/
structure Sibling (behind blank form after : List Char) : Prop where
  split : behind = blank ++ (form ++ after)
  blank : ∀ c ∈ blank, isWhitespace c
  form : Form after form

/-- The closer at `c` has moved past the sibling and nothing else has changed;
without a sibling there is no text. -/
structure Slurped (s : List Char) (c : Nat) (out : Option (List Char)) :
    Prop where
  sibling {blank form after : List Char} :
    Sibling (s.drop (c + 1)) blank form after →
      out = some (s.take c ++ blank ++ form ++ (s[c]?.toList ++ after))
  alone : (∀ blank form after,
    ¬ Sibling (s.drop (c + 1)) blank form after) → out = none
  balanced : ∀ t ∈ out, Balanced t ∧ t.Perm s

variable {s front behind waits waits' : List Char} {c d op cl : Char}

-- == delimiters

theorem closeFor_eq_some (h : closeFor c = some d) :
    isClose c = false ∧ isClose d = true ∧ closeFor d = none ∧
      isWhitespace c = false ∧ isWhitespace d = false := by
  unfold closeFor at h
  split at h
  · cases h; decide
  · cases h; decide
  · cases h; decide
  · cases h

theorem closeFor_of_isClose (h : isClose c = true) :
    closeFor c = none ∧ isWhitespace c = false := by
  unfold isClose at h
  rw [Bool.or_eq_true, Bool.or_eq_true, beq_iff_eq, beq_iff_eq,
    beq_iff_eq] at h
  rcases h with (rfl | rfl) | rfl
  · decide
  · decide
  · decide

theorem plain_of_blank (h : isWhitespace c = true) :
    closeFor c = none ∧ isClose c = false := by
  constructor
  · cases hc : closeFor c with
    | none => rfl
    | some d =>
        have hblank := (closeFor_eq_some hc).2.2.2.1
        rw [h] at hblank
        cases hblank
  · cases hc : isClose c with
    | false => rfl
    | true =>
        have hblank := (closeFor_of_isClose hc).2
        rw [h] at hblank
        cases hblank

/-- What is neither blank nor a closer starts a form. -/
theorem isAtom_or_open (hblank : isWhitespace c = false)
    (hclose : isClose c = false) :
    isAtom c = true ∨ ∃ d, closeFor c = some d := by
  cases hc : closeFor c with
  | none => exact .inl (by rw [isAtom, hblank, hclose, hc]; rfl)
  | some d => exact .inr ⟨d, rfl⟩

theorem isAtom_eq_true (h : isAtom c = true) :
    isWhitespace c = false ∧ closeFor c = none ∧ isClose c = false := by
  unfold isAtom at h
  rw [Bool.and_eq_true, Bool.and_eq_true, Bool.not_eq_true', Bool.not_eq_true',
    Option.isNone_iff_eq_none] at h
  exact ⟨h.1.1, h.1.2, h.2⟩

-- == the stack

/-- What a char does to the stack. -/
theorem awaited_cons_cases (h : awaited waits (c :: s) = some waits') :
    (∃ d, closeFor c = some d ∧ isClose c = false ∧
      awaited (d :: waits) s = some waits') ∨
    (∃ outer, waits = c :: outer ∧ closeFor c = none ∧ isClose c = true ∧
      awaited outer s = some waits') ∨
    (closeFor c = none ∧ isClose c = false ∧
      awaited waits s = some waits') := by
  unfold awaited at h ⊢
  rw [List.foldlM_cons] at h
  obtain ⟨mid, hmid, hrest⟩ := Option.bind_eq_some_iff.mp h
  unfold await at hmid
  split at hmid
  · next d hd =>
      cases hmid
      exact .inl ⟨d, hd, (closeFor_eq_some hd).1, hrest⟩
  · next hnone =>
      split at hmid
      · next hclose =>
          split at hmid
          · next d outer =>
              split at hmid
              · next heq =>
                  subst heq
                  cases hmid
                  exact .inr (.inl ⟨_, rfl, hnone, hclose, hrest⟩)
              · cases hmid
          · cases hmid
      · next hclose =>
          cases hmid
          exact .inr (.inr ⟨hnone, Bool.eq_false_iff.mpr hclose, hrest⟩)

theorem awaited_append (waits s t : List Char) :
    awaited waits (s ++ t) = (awaited waits s).bind (awaited · t) :=
  List.foldlM_append

theorem awaited_cons (waits s : List Char) (c : Char) :
    awaited waits (c :: s) = (await waits c).bind (awaited · s) :=
  List.foldlM_cons

theorem awaited_open (h : closeFor op = some cl) :
    awaited waits (op :: s) = awaited (cl :: waits) s := by
  rw [awaited_cons]
  unfold await
  rw [h]
  rfl

theorem awaited_close (hnone : closeFor c = none) (hclose : isClose c = true) :
    awaited (c :: waits) (c :: s) = awaited waits s := by
  rw [awaited_cons]
  unfold await
  rw [hnone]
  dsimp only
  rw [if_pos hclose, if_pos rfl, Option.bind_some]

theorem awaited_plain (hnone : closeFor c = none)
    (hclose : isClose c = false) :
    awaited waits (c :: s) = awaited waits s := by
  rw [awaited_cons]
  unfold await
  rw [hnone]
  dsimp only
  rw [if_neg (Bool.eq_false_iff.mp hclose), Option.bind_some]

/-- What is awaited farther out does not matter. -/
theorem awaited_frame (h : awaited waits s = some waits')
    (outer : List Char) :
    awaited (waits ++ outer) s = some (waits' ++ outer) := by
  induction s generalizing waits with
  | nil => cases h; rfl
  | cons c s ih =>
      rcases awaited_cons_cases h with
        ⟨d, hd, _, h⟩ | ⟨inner, rfl, hnone, hclose, h⟩ | ⟨hnone, hclose, h⟩
      · rw [awaited_open hd]
        exact ih h
      · rw [List.cons_append, awaited_close hnone hclose]
        exact ih h
      · rw [awaited_plain hnone hclose]
        exact ih h

theorem Balanced.awaited (h : Balanced s) (waits t : List Char) :
    awaited waits (s ++ t) = awaited waits t := by
  have hframe := awaited_frame h waits
  rw [List.nil_append] at hframe
  rw [awaited_append, hframe, Option.bind_some]

theorem awaited_blank (h : ∀ c ∈ s, closeFor c = none ∧ isClose c = false)
    (waits t : List Char) : awaited waits (s ++ t) = awaited waits t := by
  induction s with
  | nil => rfl
  | cons c s ih =>
      obtain ⟨hc, hs⟩ := List.forall_mem_cons.mp h
      rw [List.cons_append, awaited_plain hc.1 hc.2, ih hs]

theorem awaited_list (h : closeFor op = some cl) {inner : List Char}
    (hi : Balanced inner) (waits t : List Char) :
    awaited waits (op :: (inner ++ cl :: t)) = awaited waits t := by
  obtain ⟨_, hclose, hnone, _⟩ := closeFor_eq_some h
  rw [awaited_open h, hi.awaited, awaited_close hnone hclose]

/-- The list whose closer is awaited first. -/
theorem awaited_split (h : awaited [] s = some (d :: waits)) :
    ∃ front op inner, s = front ++ op :: inner ∧ closeFor op = some d ∧
      Balanced inner ∧ awaited [] front = some waits := by
  induction hn : s.length using Nat.strong_induction_on
    generalizing s d waits with
  | _ n ih =>
  subst hn
  rcases List.eq_nil_or_concat s with rfl | ⟨s, c, rfl⟩
  · cases h
  · rw [List.concat_eq_append] at h ih ⊢
    rw [awaited_append, Option.bind_eq_some_iff] at h
    obtain ⟨mid, hmid, hc⟩ := h
    have hlen : s.length < (s ++ [c]).length := by
      rw [List.length_append]
      exact Nat.lt_succ_self _
    rcases awaited_cons_cases hc with
      ⟨e, he, _, h⟩ | ⟨outer, rfl, hnone, hclose, h⟩ | ⟨hnone, hclose, h⟩
    · cases h
      exact ⟨s, c, [], rfl, he, rfl, hmid⟩
    · -- the list that `c` closes is behind the one that is looked for
      cases h
      obtain ⟨front', op', inner', rfl, hop', hinner', hfront'⟩ :=
        ih _ hlen hmid rfl
      have hlen' :
          front'.length < (front' ++ op' :: inner' ++ [c]).length := by
        simp only [List.length_append, List.length_cons]
        omega
      obtain ⟨front, op, inner, rfl, hop, hinner, hfront⟩ :=
        ih _ hlen' hfront' rfl
      refine ⟨front, op, inner ++ op' :: (inner' ++ [c]), ?_, hop, ?_, hfront⟩
      · simp only [List.append_assoc, List.cons_append]
      · rw [Balanced, hinner.awaited, awaited_list hop' hinner']
        rfl
    · cases h
      obtain ⟨front, op, inner, rfl, hop, hinner, hfront⟩ := ih _ hlen hmid rfl
      refine ⟨front, op, inner ++ [c], ?_, hop, ?_, hfront⟩
      · rw [List.append_assoc, List.cons_append]
      · rw [Balanced, hinner.awaited, awaited_plain hnone hclose]
        rfl

/-- The closer that is awaited first. -/
theorem awaited_closes (h : awaited (d :: waits) s = some []) :
    ∃ inner rest, s = inner ++ d :: rest ∧ Balanced inner ∧
      awaited waits rest = some [] := by
  induction hn : s.length using Nat.strong_induction_on
    generalizing s d waits with
  | _ n ih =>
  subst hn
  cases s with
  | nil => cases h
  | cons c s =>
      rcases awaited_cons_cases h with
        ⟨e, he, _, h⟩ | ⟨outer, hwaits, _, _, h⟩ | ⟨hnone, hclose, h⟩
      · obtain ⟨inner', rest', rfl, hinner', h⟩ :=
          ih _ (Nat.lt_succ_self _) h rfl
        have hlen : rest'.length < (c :: (inner' ++ e :: rest')).length := by
          simp only [List.length_append, List.length_cons]
          omega
        obtain ⟨inner, rest, rfl, hinner, h⟩ := ih _ hlen h rfl
        refine ⟨c :: (inner' ++ e :: inner), rest, ?_, ?_, h⟩
        · simp only [List.append_assoc, List.cons_append]
        · rw [Balanced, awaited_list he hinner']
          exact hinner
      · cases hwaits
        exact ⟨[], s, rfl, rfl, h⟩
      · obtain ⟨inner, rest, rfl, hinner, h⟩ := ih _ (Nat.lt_succ_self _) h rfl
        refine ⟨c :: inner, rest, rfl, ?_, h⟩
        rw [Balanced, awaited_plain hnone hclose]
        exact hinner

-- == the scans

/-- The backward scan counts what is awaited. -/
theorem opener_skip (h : awaited waits s = some waits') (k : Nat)
    (front : List Char) :
    opener (k + waits'.length : Nat) (s.reverse ++ front) =
      opener (k + waits.length : Nat) front := by
  induction s generalizing waits front with
  | nil => cases h; rfl
  | cons c s ih =>
      rw [List.reverse_cons, List.append_assoc, List.singleton_append]
      rcases awaited_cons_cases h with
        ⟨d, hd, hclose, h⟩ | ⟨outer, rfl, _, hclose, h⟩ | ⟨hnone, hclose, h⟩
      · rw [ih h, opener, if_neg (Bool.eq_false_iff.mp hclose),
          if_pos (Option.isSome_iff_exists.mpr ⟨d, hd⟩), if_neg (by
            rw [List.length_cons]; omega)]
        congr 1
        rw [List.length_cons]
        omega
      · rw [ih h, opener, if_pos hclose]
        congr 1
      · rw [ih h, opener, if_neg (Bool.eq_false_iff.mp hclose), hnone,
          if_neg (nomatch ·)]

/-- So does the forward scan inside a list. -/
theorem closer_skip (h : awaited waits s = some waits') (k i : Nat)
    (rest : List Char) :
    closer (k + 1 + waits.length : Nat) i (s ++ rest) =
      closer (k + 1 + waits'.length : Nat) (i + s.length) rest := by
  induction s generalizing waits i with
  | nil => cases h; rfl
  | cons c s ih =>
      have hlen : i + (c :: s).length = i + 1 + s.length := by
        rw [List.length_cons]
        omega
      rw [List.cons_append, closer, hlen]
      rcases awaited_cons_cases h with
        ⟨d, hd, _, h⟩ | ⟨outer, rfl, hnone, hclose, h⟩ | ⟨hnone, hclose, h⟩
      · rw [if_pos (Option.isSome_iff_exists.mpr ⟨d, hd⟩), ← ih h]
        congr 1
      · rw [hnone, if_neg (nomatch ·), if_pos hclose, if_neg (by
          rw [List.length_cons]; omega), ← ih h]
        congr 1
        rw [List.length_cons]
        omega
      · rw [hnone, if_neg (nomatch ·),
          if_neg (Bool.eq_false_iff.mp hclose), ih h]

theorem matchingClose_list (h : closeFor op = some cl) {inner : List Char}
    (hi : Balanced inner) (front rest : List Char) :
    matchingClose (front ++ op :: (inner ++ cl :: rest)) front.length =
      some (front.length + 1 + inner.length) := by
  obtain ⟨_, hclose, hnone, _⟩ := closeFor_eq_some h
  have hscan := closer_skip hi 0 (front.length + 1) (cl :: rest)
  have hend : closer 1 (front.length + 1 + inner.length) (cl :: rest) =
      some (front.length + 1 + inner.length) := by
    rw [closer, hnone, if_neg (nomatch ·), if_pos hclose]
    rfl
  unfold matchingClose
  rw [List.getElem?_append_right le_rfl, Nat.sub_self, List.getElem?_cons_zero,
    Option.bind_some, h, Option.bind_some, List.drop_left, closer,
    if_pos (Option.isSome_iff_exists.mpr ⟨cl, h⟩)]
  exact hscan.trans hend

variable {cursor o : Nat} {after form blank before : List Char}

/-- The two scans end on the innermost list. -/
theorem enclosing_innermost {c : Nat} (h : Innermost s cursor o c) :
    enclosing s cursor = some (o, c) := by
  obtain ⟨⟨⟨front, op, inner, cl, rest, rfl, hop, hinner, rfl, rfl⟩, hlo,
    hhi⟩, hmost⟩ := h
  obtain ⟨n, rfl⟩ : ∃ n, cursor = front.length + (n + 1) :=
    ⟨cursor - front.length - 1, by omega⟩
  have hn : n ≤ inner.length := by omega
  have htake : (front ++ op :: (inner ++ cl :: rest)).take
      (front.length + (n + 1)) = front ++ op :: inner.take n := by
    rw [List.take_append, List.take_of_length_le (by omega),
      Nat.add_sub_cancel_left, List.take_succ_cons,
      List.take_append_of_le_length hn]
  have hcut := awaited_append [] (inner.take n) (inner.drop n)
  rw [List.take_append_drop, hinner] at hcut
  obtain ⟨waits, hleft, hright⟩ := Option.bind_eq_some_iff.mp hcut.symm
  have hwaits : waits = [] := by
    cases waits with
    | nil => rfl
    | cons d waits =>
        obtain ⟨front', op', left, hl, hop', hbl, _⟩ := awaited_split hleft
        obtain ⟨right, rest', hr, hbr, _⟩ := awaited_closes hright
        have hbalanced : Balanced (left ++ right) := by
          rw [Balanced, hbl.awaited]
          exact hbr
        have hwhole :
            inner = front' ++ op' :: (left ++ right ++ d :: rest') := by
          rw [← List.take_append_drop n inner, hl, hr]
          simp only [List.append_assoc, List.cons_append]
        have hlen := congrArg List.length hl
        rw [List.length_take, Nat.min_eq_left hn, List.length_append,
          List.length_cons] at hlen
        have := hmost (front.length + 1 + front'.length) _
          ⟨⟨front ++ op :: front', op', left ++ right, d,
            rest' ++ cl :: rest, by
              rw [hwhole]
              simp only [List.append_assoc, List.cons_append], hop',
            hbalanced, by
              rw [List.length_append, List.length_cons]
              omega, rfl⟩, by omega, by
              rw [List.length_append]
              omega⟩
        omega
  subst hwaits
  have hopen : opener 0 (front ++ op :: inner.take n).reverse =
      some front.length := by
    have hskip := opener_skip hleft 0 (op :: front.reverse)
    rw [List.reverse_append, List.reverse_cons, List.append_assoc,
      List.singleton_append]
    refine hskip.trans ?_
    rw [opener, if_neg (Bool.eq_false_iff.mp (closeFor_eq_some hop).1),
      if_pos (Option.isSome_iff_exists.mpr ⟨cl, hop⟩), List.length_reverse]
    rfl
  unfold enclosing
  rw [htake, hopen, Option.bind_some, matchingClose_list hop hinner]
  rfl

-- == the loops

theorem filter_zipIdx {n : Nat} {p : Nat → Bool}
    (h : ∀ i, n ≤ i → i < n + s.length → p i = true) :
    ((s.zipIdx n).filter fun (_, i) => p i).map Prod.fst = s := by
  have hall : ∀ x ∈ s.zipIdx n, p x.2 = true := fun x hx =>
    h x.2 (List.le_snd_of_mem_zipIdx hx) (List.snd_lt_add_of_mem_zipIdx hx)
  rw [List.filter_eq_self.mpr hall, List.zipIdx_map_fst]

theorem flatMap_zipIdx {n : Nat} {f : Char × Nat → List Char}
    (h : ∀ c i, n ≤ i → i < n + s.length → f (c, i) = [c]) :
    (s.zipIdx n).flatMap f = s := by
  have hall : ∀ x ∈ s.zipIdx n, f x = [x.1] := fun x hx =>
    h x.1 x.2 (List.le_snd_of_mem_zipIdx hx)
      (List.snd_lt_add_of_mem_zipIdx hx)
  rw [List.flatMap_congr hall, ← List.map_eq_flatMap, List.zipIdx_map_fst]

/-- The pair goes and the rest stays. -/
theorem spliceSexp_innermost {c : Nat} (hs : Balanced s)
    (h : Innermost s cursor o c) :
    spliceSexp s cursor = some ((s.eraseIdx c).eraseIdx o) ∧
      Balanced ((s.eraseIdx c).eraseIdx o) := by
  have henclosing := enclosing_innermost h
  obtain ⟨⟨⟨front, op, inner, cl, rest, rfl, hop, hinner, rfl, rfl⟩, _⟩,
    _⟩ := h
  have herase : ((front ++ op :: (inner ++ cl :: rest)).eraseIdx
      (front.length + 1 + inner.length)).eraseIdx front.length =
        front ++ (inner ++ rest) := by
    have hassoc : front ++ op :: (inner ++ cl :: rest) =
        (front ++ op :: inner) ++ cl :: rest := by
      rw [List.append_assoc, List.cons_append]
    have hlen : front.length + 1 + inner.length =
        (front ++ op :: inner).length := by
      rw [List.length_append, List.length_cons]
      omega
    rw [hassoc, hlen, List.eraseIdx_append_of_length_le le_rfl, Nat.sub_self,
      List.eraseIdx_cons_zero, List.append_assoc, List.cons_append,
      List.eraseIdx_append_of_length_le le_rfl, Nat.sub_self,
      List.eraseIdx_cons_zero]
  rw [herase]
  constructor
  · unfold spliceSexp
    rw [henclosing, Option.map_some]
    dsimp only
    have hfront := filter_zipIdx (s := front) (n := 0) (p := fun i =>
      i != front.length && i != front.length + 1 + inner.length)
      fun i _ hi => by
        rw [Bool.and_eq_true, bne_iff_ne, bne_iff_ne]
        omega
    have hmiddle := filter_zipIdx (s := inner) (n := front.length + 1)
      (p := fun i =>
        i != front.length && i != front.length + 1 + inner.length)
      fun i _ hi => by
        rw [Bool.and_eq_true, bne_iff_ne, bne_iff_ne]
        omega
    have hrest := filter_zipIdx (s := rest)
      (n := front.length + 1 + inner.length + 1) (p := fun i =>
        i != front.length && i != front.length + 1 + inner.length)
      fun i _ hi => by
        rw [Bool.and_eq_true, bne_iff_ne, bne_iff_ne]
        omega
    rw [List.zipIdx_append, List.zipIdx_cons, List.zipIdx_append,
      List.zipIdx_cons, List.filter_append, List.filter_cons_of_neg (by simp),
      List.filter_append, List.filter_cons_of_neg (by simp),
      List.map_append, List.map_append, Nat.zero_add, hfront, hmiddle, hrest]
  · rw [Balanced, awaited_append] at hs ⊢
    obtain ⟨waits, hfront, h⟩ := Option.bind_eq_some_iff.mp hs
    rw [awaited_list hop hinner] at h
    rw [hfront, Option.bind_some, hinner.awaited, h]

/-- The copying loop, where the form ends behind the closer. -/
theorem copy_eq (before mid after : List Char) (cl z : Char) :
    ((before ++ cl :: (mid ++ z :: after)).zipIdx.flatMap
      fun (ch, idx) =>
        if idx = before.length then []
        else if idx = before.length + 1 + mid.length then
          ch :: (before ++ cl :: (mid ++ z :: after))[before.length]?.toList
        else [ch]) = before ++ (mid ++ z :: cl :: after) := by
  rw [List.getElem?_append_right le_rfl, Nat.sub_self,
    List.getElem?_cons_zero, List.zipIdx_append, List.zipIdx_cons,
    List.zipIdx_append, List.zipIdx_cons, List.flatMap_append,
    List.flatMap_cons, List.flatMap_append, List.flatMap_cons,
    flatMap_zipIdx (s := before) fun c i _ hi => by
      dsimp only
      rw [if_neg (by omega), if_neg (by omega)],
    flatMap_zipIdx (s := mid) fun c i hi hi' => by
      dsimp only
      rw [if_neg (by omega), if_neg (by omega)],
    flatMap_zipIdx (s := after) fun c i hi _ => by
      dsimp only
      rw [if_neg (by omega), if_neg (by omega)]]
  dsimp only
  rw [if_pos (Nat.zero_add _), if_neg (by omega), if_pos (by omega)]
  rfl

-- == slurping

theorem Form.head {after form : List Char} (h : Form after form) :
    ∃ c rest, form = c :: rest ∧ isWhitespace c = false ∧
      isClose c = false := by
  cases h with
  | atom hne hall =>
      obtain ⟨c, rest, rfl⟩ := List.exists_cons_of_ne_nil hne
      obtain ⟨hblank, _, hclose⟩ :=
        isAtom_eq_true (List.forall_mem_cons.mp hall).1
      exact ⟨c, rest, rfl, hblank, hclose⟩
  | list hop _ =>
      obtain ⟨hclose, _, _, hblank, _⟩ := closeFor_eq_some hop
      exact ⟨_, _, rfl, hblank, hclose⟩

theorem Form.awaited (h : Form after form) (waits t : List Char) :
    awaited waits (form ++ t) = awaited waits t := by
  cases h with
  | atom _ hall _ =>
      exact awaited_blank (fun c hc => (isAtom_eq_true (hall c hc)).2) waits t
  | list hop hinner =>
      rw [List.cons_append, List.append_assoc]
      exact awaited_list hop hinner waits t

theorem takeWhile_stop {p : Char → Bool} {t : List Char}
    (hs : ∀ c ∈ s, p c) (ht : ∀ c ∈ t.head?, p c = false) :
    (s ++ t).takeWhile p = s ∧ (s ++ t).dropWhile p = t := by
  rw [List.takeWhile_append_of_pos hs, List.dropWhile_append_of_pos hs]
  cases t with
  | nil => exact ⟨List.append_nil s, rfl⟩
  | cons c t =>
      have hc : ¬ p c = true := Bool.eq_false_iff.mp (ht c rfl)
      rw [List.takeWhile_cons_of_neg hc, List.dropWhile_cons_of_neg hc]
      exact ⟨List.append_nil s, rfl⟩

theorem Sibling.next (h : Sibling behind blank form after) :
    behind.takeWhile isWhitespace = blank ∧
      behind.dropWhile isWhitespace = form ++ after := by
  obtain ⟨rfl, hblank, hform⟩ := h
  obtain ⟨c, rest, rfl, hc, _⟩ := hform.head
  exact takeWhile_stop hblank fun d hd => by cases hd; exact hc

/-- Where the text behind a list does not go on with a closer, there is a
sibling. -/
theorem exists_sibling {t : List Char} (hblank : ∀ c ∈ blank, isWhitespace c)
    (hc : isWhitespace c = false) (hclose : isClose c = false)
    (ht : awaited waits (c :: t) = some []) :
    ∃ form after, Sibling (blank ++ c :: t) blank form after := by
  rcases isAtom_or_open hc hclose with hatom | ⟨d, hd⟩
  · refine ⟨(c :: t).takeWhile isAtom, (c :: t).dropWhile isAtom,
      by rw [List.takeWhile_append_dropWhile], hblank, .atom ?_ ?_ ?_⟩
    · rw [List.takeWhile_cons_of_pos hatom]
      exact List.cons_ne_nil _ _
    · exact fun x hx => List.mem_takeWhile_imp hx
    · intro x hx
      have := List.head?_dropWhile_not isAtom (c :: t)
      rw [Option.mem_def.mp hx] at this
      exact Bool.not_eq_true' _ |>.mp (by simpa using this)
  · rw [awaited_open hd] at ht
    obtain ⟨inner, rest, rfl, hinner, _⟩ := awaited_closes ht
    exact ⟨c :: (inner ++ [d]), rest, by simp, hblank, .list hd hinner⟩

/-- The form is found to its end. -/
theorem formEnd_form (front : List Char) (h : Form after form) :
    formEnd (front ++ (form ++ after)) front.length =
      some (front.length + form.length - 1) := by
  unfold formEnd
  rw [List.getElem?_append_right le_rfl, Nat.sub_self]
  cases h with
  | atom hne hall hstop =>
      obtain ⟨c, rest, rfl⟩ := List.exists_cons_of_ne_nil hne
      have hnone := (isAtom_eq_true (List.forall_mem_cons.mp hall).1).2.1
      rw [List.cons_append, List.getElem?_cons_zero, Option.bind_some, hnone,
        if_neg (nomatch ·), List.drop_left, ← List.cons_append,
        (takeWhile_stop hall hstop).1]
  | list hop hinner =>
      rw [List.cons_append, List.getElem?_cons_zero, Option.bind_some,
        if_pos (Option.isSome_iff_exists.mpr ⟨_, hop⟩), List.append_assoc,
        List.singleton_append, matchingClose_list hop hinner]
      rw [List.length_cons, List.length_append, List.length_singleton]
      congr 1
      omega

theorem drop_behind (before behind : List Char) (cl : Char) :
    (before ++ cl :: behind).drop (before.length + 1) = behind := by
  rw [List.drop_append, List.drop_of_length_le (Nat.le_succ _),
    Nat.add_sub_cancel_left]
  rfl

theorem slurpForward_sibling
    (h : enclosing (before ++ cl :: behind) cursor = some (o, before.length))
    (hsib : Sibling behind blank form after) :
    slurpForward (before ++ cl :: behind) cursor =
      some (before ++ (blank ++ form ++ cl :: after)) := by
  obtain ⟨hwhile, -⟩ := hsib.next
  obtain ⟨rfl, -, hform⟩ := hsib
  obtain ⟨x, rest, hx, -⟩ := hform.head
  obtain ⟨form', z, rfl⟩ : ∃ form' z, form = form' ++ [z] := by
    have hne : form ≠ [] := hx ▸ List.cons_ne_nil _ _
    exact ⟨_, _, (List.dropLast_append_getLast hne).symm⟩
  have hend := formEnd_form (before ++ cl :: blank) hform
  rw [List.append_assoc, List.cons_append, List.length_append,
    List.length_cons, ← Nat.add_assoc, Nat.add_right_comm] at hend
  have hlen : ¬ (before ++ cl :: (blank ++ (form' ++ [z] ++ after))).length ≤
      before.length + 1 + blank.length := by
    simp only [List.length_append, List.length_cons, List.length_nil]
    omega
  have hstop : before.length + 1 + blank.length + (form' ++ [z]).length - 1 =
      before.length + 1 + (blank ++ form').length := by
    simp only [List.length_append, List.length_cons, List.length_nil]
    omega
  have hcopy := copy_eq before (blank ++ form') after cl z
  have hassoc : before ++ cl :: (blank ++ (form' ++ [z] ++ after)) =
      before ++ cl :: (blank ++ form' ++ z :: after) := by
    simp only [List.append_assoc, List.singleton_append]
  unfold slurpForward
  rw [h, Option.bind_some]
  dsimp only
  rw [drop_behind, hwhile, if_neg hlen, hend, hstop, Option.map_some,
    hassoc, hcopy]
  simp only [List.append_assoc, List.cons_append, List.nil_append]

/-- The text is balanced with the closer behind the sibling. -/
theorem Sibling.moved (h : Sibling behind blank form after)
    (hcl : closeFor cl = none ∧ isClose cl = true)
    (hwaits : RegionOps.awaited [] before = some (cl :: waits))
    (hbehind : RegionOps.awaited waits behind = some []) :
    Balanced (before ++ (blank ++ form ++ cl :: after)) ∧
      (before ++ (blank ++ form ++ cl :: after)).Perm
        (before ++ cl :: behind) := by
  obtain ⟨rfl, hspace, hform⟩ := h
  have hplain := awaited_blank fun c hc => plain_of_blank (hspace c hc)
  rw [hplain, hform.awaited] at hbehind
  constructor
  · rw [Balanced, awaited_append, hwaits, Option.bind_some,
      List.append_assoc, hplain, hform.awaited, awaited_close hcl.1 hcl.2]
    exact hbehind
  · rw [← List.append_assoc blank]
    exact List.perm_middle.append_left before

/-- Behind the blanks nothing comes, or the parent's closer. -/
theorem slurpForward_next
    (h : enclosing (before ++ cl :: behind) cursor = some (o, before.length)) :
    (behind.dropWhile isWhitespace = [] →
      slurpForward (before ++ cl :: behind) cursor = none) ∧
    ∀ x t, behind.dropWhile isWhitespace = x :: t → isClose x = true →
      slurpForward (before ++ cl :: behind) cursor ≠ none := by
  have hparts := List.takeWhile_append_dropWhile (p := isWhitespace)
    (l := behind)
  have hlen := congrArg List.length hparts
  rw [List.length_append] at hlen
  unfold slurpForward
  rw [h, Option.bind_some]
  dsimp only
  rw [drop_behind, List.length_append, List.length_cons]
  constructor
  · intro hnil
    rw [hnil, List.length_nil] at hlen
    rw [if_pos (by omega)]
  · intro x t hx hclose
    rw [hx, List.length_cons] at hlen
    have hsplit : before ++ cl :: behind =
        (before ++ cl :: behind.takeWhile isWhitespace) ++ x :: t := by
      rw [List.append_assoc, List.cons_append, ← hx, hparts]
    have hget : (before ++ cl :: behind)[before.length + 1 +
        (behind.takeWhile isWhitespace).length]? = some x := by
      rw [hsplit, List.getElem?_append_right (by
        rw [List.length_append, List.length_cons]; omega),
        List.length_append, List.length_cons, ← Nat.add_assoc,
        Nat.add_right_comm, Nat.sub_self]
      rfl
    have hnone := (closeFor_of_isClose hclose).1
    rw [if_neg (by omega), formEnd, hget, Option.bind_some, hnone,
      if_neg (nomatch ·)]
    exact nofun

/-- A closer comes next behind the blanks. -/
def ClosesNext (behind : List Char) : Prop :=
  ∃ c, (behind.dropWhile isWhitespace).head? = some c ∧ isClose c = true

/-- The splice and the slurp are as they should be just when the text behind
the list does not go on with its parent's closer. -/
theorem sexp_law {cursor o c : Nat} (hs : Balanced s)
    (h : Innermost s cursor o c) :
    ((spliceSexp s cursor = some ((s.eraseIdx c).eraseIdx o) ∧
        Balanced ((s.eraseIdx c).eraseIdx o)) ∧
      Slurped s c (slurpForward s cursor)) ↔
      ¬ ClosesNext (s.drop (c + 1)) := by
  rw [and_iff_right (spliceSexp_innermost hs h)]
  have henclosing := enclosing_innermost h
  obtain ⟨⟨⟨front, op, inner, cl, behind, hsplit, hop, hinner, rfl, rfl⟩, _⟩,
    _⟩ := h
  obtain ⟨before, hbefore, hlen⟩ : ∃ before, before = front ++ op :: inner ∧
      before.length = front.length + 1 + inner.length :=
    ⟨_, rfl, by rw [List.length_append, List.length_cons]; omega⟩
  rw [← List.cons_append, ← List.append_assoc, ← hbefore] at hsplit
  subst hsplit
  rw [← hlen] at henclosing ⊢
  have hclosed : ∃ waits, awaited [] before = some (cl :: waits) ∧
      awaited waits behind = some [] := by
    rw [Balanced, hbefore, List.append_assoc, awaited_append] at hs
    obtain ⟨waits, hfront, hs⟩ := Option.bind_eq_some_iff.mp hs
    rw [List.cons_append, awaited_list hop hinner] at hs
    refine ⟨waits, ?_, hs⟩
    have := hinner.awaited (cl :: waits) []
    rw [List.append_nil] at this
    rw [hbefore, awaited_append, hfront, Option.bind_some, awaited_open hop,
      this]
    rfl
  obtain ⟨waits, hwaits, hbehind⟩ := hclosed
  have hcl : closeFor cl = none ∧ isClose cl = true :=
    ⟨(closeFor_eq_some hop).2.2.1, (closeFor_eq_some hop).2.1⟩
  have hblank := List.all_takeWhile (l := behind) (p := isWhitespace)
  rw [List.all_eq_true] at hblank
  have hparts := List.takeWhile_append_dropWhile (p := isWhitespace)
    (l := behind)
  have hplain : ∀ c ∈ behind.takeWhile isWhitespace,
      closeFor c = none ∧ isClose c = false :=
    fun c hc => plain_of_blank (hblank c hc)
  have hrest : awaited waits (behind.dropWhile isWhitespace) = some [] := by
    rw [← hbehind, ← awaited_blank hplain, hparts]
  rw [drop_behind]
  constructor
  · rintro hslurp ⟨x, hx, hclose⟩
    obtain ⟨t, hx⟩ := List.head?_eq_some_iff.mp hx
    refine (slurpForward_next henclosing).2 x t hx hclose
      (hslurp.alone fun blank form after hsib => ?_)
    rw [drop_behind] at hsib
    obtain ⟨y, rest, rfl, _, hy⟩ := hsib.form.head
    rw [hsib.next.2] at hx
    cases hx
    rw [hy] at hclose
    cases hclose
  · intro hnext
    have hsibling {blank form after : List Char}
        (hsib : Sibling behind blank form after) :=
      slurpForward_sibling henclosing hsib
    cases hd : behind.dropWhile isWhitespace with
    | nil =>
        have hnone := (slurpForward_next henclosing).1 hd
        rw [hnone]
        refine ⟨fun hsib => ?_, fun _ => rfl, nofun⟩
        rw [drop_behind] at hsib
        obtain ⟨y, rest, rfl, _⟩ := hsib.form.head
        have hnext := hsib.next.2
        rw [hd] at hnext
        cases hnext
    | cons x t =>
        have hx : isWhitespace x = false := by
          have hhead := List.head?_dropWhile_not isWhitespace behind
          rw [hd] at hhead
          exact Bool.not_eq_true' _ |>.mp (by simpa using hhead)
        have hclose : isClose x = false :=
          Bool.eq_false_iff.mpr fun hclose =>
            hnext ⟨x, by rw [hd]; rfl, hclose⟩
        rw [hd] at hrest hparts
        obtain ⟨form, after, hsib⟩ := exists_sibling hblank hx hclose hrest
        rw [hparts] at hsib
        refine ⟨fun hsib' => ?_, fun halone => ?_, fun out hout => ?_⟩
        · rw [drop_behind] at hsib'
          rw [hsibling hsib', List.take_left,
            List.getElem?_append_right le_rfl, Nat.sub_self]
          simp only [List.append_assoc, List.getElem?_cons_zero,
            Option.toList_some, List.singleton_append]
        · rw [drop_behind] at halone
          exact absurd hsib (halone _ _ _)
        · rw [hsibling hsib] at hout
          cases hout
          exact hsib.moved hcl hwaits hbehind

/-- A list with an atom behind it. -/
theorem sexp_law_atom :
    (spliceSexp "(a) b".toList 1 =
        some (("(a) b".toList.eraseIdx 2).eraseIdx 0) ∧
      Balanced (("(a) b".toList.eraseIdx 2).eraseIdx 0)) ∧
      Slurped "(a) b".toList 2 (slurpForward "(a) b".toList 1) ↔
      ¬ ClosesNext ("(a) b".toList.drop 3) := by
  refine sexp_law (by decide) ⟨⟨⟨[], '(', ['a'], ')', [' ', 'b'], rfl, rfl,
    by decide, rfl, rfl⟩, by decide, by decide⟩, fun o' c' h => ?_⟩
  exact Nat.le_of_lt_succ h.2.1

/-- The parent's closer comes next. -/
theorem not_sexp_law :
    Balanced "((b))".toList ∧ Innermost "((b))".toList 2 1 3 ∧
      slurpForward "((b))".toList 2 = some "((b)".toList ∧
      ¬ Balanced "((b)".toList := by
  refine ⟨by decide, ⟨⟨⟨['('], '(', ['b'], ')', [')'], rfl, rfl, by decide,
    rfl, rfl⟩, by decide, by decide⟩, fun o' c' h => ?_⟩, by decide,
    by decide⟩
  exact Nat.le_of_lt_succ h.2.1

end Zmax.RegionOps
