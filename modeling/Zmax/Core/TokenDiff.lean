/-
zmax-core/src/merge_ops.rs: the diffs of two texts by line and by token,
and the reconciliation of two edits of one text, token by token.

`LineDiff` and `WordDiff` are two types with the same three variants in
the source and one here. A `while` loop that copies what lies in front of
a pair is the list of the elements it indexes, so an index out of bounds
is still a panic.

What the diffs of two texts are.

The table of the source is `Lcs.size` at every pair of suffixes
(`lcsTable_eq`), and the walk through it pairs up as much as the entry it
starts at (`length_lcsWalk`), so no matching is larger. The diff parts are
then read off the pairs in front of which they stand: both sides of a diff
are what lies between the pairs and the pairs themselves, which is the
whole list.
-/
import Mathlib.Data.List.Chain
import Zmax.Core.Proofs.Merge
import Zmax.Core.Text
import Zmax.Core.Unicode
import Zmax.Lib.Lcs
import Zmax.Lib.Splice

namespace Zmax.Merge

/-- One step of a diff: what is unchanged, removed from the first text, or
added in the second. -/
inductive DiffPart where
  | equal (s : List Char)
  | delete (s : List Char)
  | insert (s : List Char)
  deriving DecidableEq, Repr

abbrev LineDiff := DiffPart

abbrev WordDiff := DiffPart

/-- The elements from `i` on that are in front of `stop`, each looked up. -/
def elements (xs : List (List Char)) (i stop : Nat) :
    Result (List (List Char)) :=
  (List.range' i (stop - i)).mapM (index xs)

/-- The loop both diffs run over the pairs: what only the first text has,
what only the second has, and the pair itself. -/
def diffParts (a b : List (List Char)) :
    List (Nat × Nat) → Nat → Nat → Result (List DiffPart)
  | [], _, _ => .ok []
  | (pi, pj) :: pairs, i, j => do
      let dels ← elements a i pi
      let inss ← elements b j pj
      if pi < a.length then
        let shared ← index a pi
        let rest ← diffParts a b pairs (pi + 1) (pj + 1)
        return dels.map .delete ++ inss.map .insert ++ .equal shared :: rest
      else
        let rest ← diffParts a b pairs (max i pi) (max j pj)
        return dels.map .delete ++ inss.map .insert ++ rest

/-- Diff two texts line by line. -/
def lineDiff (a b : Rope) : Result (List LineDiff) :=
  let la := splitLines a
  let lb := splitLines b
  diffParts la lb (lcsPairs la lb ++ [(la.length, lb.length)]) 0 0

-- == tokens

/-- A token of a text. -/
abbrev Token := List Char

section Tokens

variable (U : Unicode)

/-- Split a text into its tokens: the runs of identifier chars, the runs of
whitespace, and every other char by itself. -/
def tokenize : List Char → List Token
  | [] => []
  | c :: s =>
      if charIsWord U c then
        (c :: s.takeWhile (charIsWord U)) ::
          tokenize (s.dropWhile (charIsWord U))
      else if Text.isWhitespace c then
        (c :: s.takeWhile Text.isWhitespace) ::
          tokenize (s.dropWhile Text.isWhitespace)
      else [c] :: tokenize s
termination_by s => s.length
decreasing_by
  · exact Nat.lt_succ_of_le (List.dropWhile_suffix _).length_le
  · exact Nat.lt_succ_of_le (List.dropWhile_suffix _).length_le
  · exact Nat.lt_succ_self _

/-- Put a part behind the others, into the last one if that is of the same
kind. -/
def pushPart (out : List WordDiff) (op : WordDiff) : List WordDiff :=
  match out.getLast?, op with
  | some (.equal prev), .equal s => out.dropLast ++ [.equal (prev ++ s)]
  | some (.delete prev), .delete s => out.dropLast ++ [.delete (prev ++ s)]
  | some (.insert prev), .insert s => out.dropLast ++ [.insert (prev ++ s)]
  | _, _ => out ++ [op]

def coalesce (ops : List WordDiff) : List WordDiff := ops.foldl pushPart []

/-- Diff two texts token by token. -/
def wordDiff (a b : Rope) : Result (List WordDiff) := do
  let ta := tokenize U a
  let tb := tokenize U b
  let raw ← diffParts ta tb (lcsPairs ta tb ++ [(ta.length, tb.length)]) 0 0
  return coalesce raw

attribute [grind =] diffParts

end Tokens

-- == reconciliation

/-- The tokens of a span of the base and what takes their place. -/
abbrev TokenEdit := Splice Token

/-- The gaps in front of the pairs, from a position on, without those that
change nothing. -/
def editsFrom (base other : List Token) :
    List (Nat × Nat) → Nat → Nat → Result (List TokenEdit)
  | [], _, _ => .ok []
  | (pb, po) :: pairs, bi, oi => do
      if pb > bi ∨ po > oi then
        let repl ← slice other oi po
        let old ← slice base bi pb
        let edits ← editsFrom base other pairs (pb + 1) (po + 1)
        return if old ≠ repl then ⟨bi, pb, repl⟩ :: edits else edits
      else editsFrom base other pairs (pb + 1) (po + 1)

/-- The edits that lead from `base` to `other`. -/
def tokenEdits (base other : List Token) : Result (List TokenEdit) :=
  editsFrom base other
    (lcsPairs base other ++ [(base.length, other.length)]) 0 0

/-- `Vec::dedup` -/
def dedup {α : Type _} [DecidableEq α] : List α → List α
  | x :: y :: xs => if x = y then dedup (y :: xs) else x :: dedup (y :: xs)
  | xs => xs

/-- Carry out the edits from left to right, or give up where one overlaps
the last one or is a second insertion at its point. -/
def weave (bt : List Token) : List TokenEdit → Nat → Option Nat →
    Option Nat → Result (Option (List Token))
  | [], cur, _, _ => do
      let rest ← slice bt cur bt.length
      return some rest
  | e :: edits, cur, prevEnd, prevZeroAt => do
      if ∃ pe ∈ prevEnd, e.start < pe ∨
          prevZeroAt = some e.start ∧ e.start = e.stop then
        return none
      else
        let keep ← slice bt cur e.start
        let out ← weave bt edits e.stop (some e.stop)
          (if e.start = e.stop then some e.start else none)
        return out.map fun out => keep ++ e.repl ++ out

/-- Carry out the edits of both sides on the base. -/
def reconcileConflict (U : Unicode) (base ours theirs : Rope) :
    Result (Option Rope) := do
  let bt := tokenize U base
  let editsO ← tokenEdits bt (tokenize U ours)
  let editsT ← tokenEdits bt (tokenize U theirs)
  let edits := (editsO ++ editsT).mergeSort fun e f => e.Le f
  let out ← weave bt (dedup edits) 0 none none
  return out.map List.flatten

attribute [grind =] editsFrom dedup weave

end Zmax.Merge

namespace Zmax.Merge

-- == the largest matching

section Table

variable {T : Type _} [DecidableEq T]

theorem lcsRow_eq (x : T) (a b : List T) :
    lcsRow x b (b.tails.map (Lcs.size a)) =
      b.tails.map (Lcs.size (x :: a)) := by
  induction b with
  | nil =>
      rw [lcsRow, List.tails, List.map_singleton, Lcs.size_nil_right]
  | cons y b ih =>
      have hhead : ∀ c : List T,
          (b.tails.map (Lcs.size c)).headD 0 = Lcs.size c b := by
        intro c
        cases b with
        | nil => rfl
        | cons z b => rw [List.tails_cons, List.map_cons, List.headD_cons]
      rw [List.tails_cons, List.map_cons, List.map_cons, lcsRow,
        List.tail_cons, List.headD_cons, ih, hhead, hhead]
      by_cases heq : x = y
      · rw [if_pos heq, ← heq, Lcs.size_cons_self]
      · rw [if_neg heq, Lcs.size_cons_ne heq]

/-- The table holds the size for every pair of suffixes. -/
theorem lcsTable_eq (a b : List T) :
    lcsTable a b = a.tails.map fun a' => b.tails.map (Lcs.size a') := by
  induction a with
  | nil =>
      rw [lcsTable, List.foldr_nil, List.tails, List.map_singleton,
        List.map_congr_left fun c _ => Lcs.size_nil c, List.map_const',
        List.length_tails]
  | cons x a ih =>
      have hfirst : (lcsTable a b).headD [] = b.tails.map (Lcs.size a) := by
        rw [ih]
        cases a with
        | nil => rfl
        | cons z a => rw [List.tails_cons, List.map_cons, List.headD_cons]
      have hcons : lcsTable (x :: a) b =
          lcsRow x b ((lcsTable a b).headD []) :: lcsTable a b := rfl
      rw [hcons, hfirst, lcsRow_eq, ih, List.tails_cons, List.map_cons]

omit [DecidableEq T] in
theorem getD_map_tails {S : Type _} (f : List T → S) (d : S) {a : List T}
    {i : Nat} (hi : i ≤ a.length) :
    (a.tails.map f).getD i d = f (a.drop i) := by
  have hlt : i < a.tails.length := by
    rw [List.length_tails]
    omega
  rw [List.getD_eq_getElem?_getD, List.getElem?_map,
    List.getElem?_eq_getElem hlt, List.getElem_tails]
  rfl

theorem entry_lcsTable {a b : List T} {i j : Nat} (hi : i ≤ a.length)
    (hj : j ≤ b.length) :
    entry (lcsTable a b) i j = Lcs.size (a.drop i) (b.drop j) := by
  rw [entry, lcsTable_eq, getD_map_tails _ _ hi, getD_map_tails _ _ hj]

/-- The walk pairs up as much as can be paired up from where it starts. -/
theorem length_lcsWalk {a b : List T} {fuel i j : Nat}
    (hfuel : a.length - i + (b.length - j) ≤ fuel) :
    (lcsWalk a b (lcsTable a b) fuel i j).length =
      Lcs.size (a.drop i) (b.drop j) := by
  induction fuel generalizing i j with
  | zero =>
      rw [List.drop_eq_nil_of_le (by omega : a.length ≤ i), Lcs.size_nil]
      rfl
  | succ fuel ih =>
      by_cases hi : i < a.length
      · by_cases hj : j < b.length
        · have hget : a[i]? = some a[i] := List.getElem?_eq_getElem hi
          have hget' : b[j]? = some b[j] := List.getElem?_eq_getElem hj
          rw [lcsWalk, hget, hget', List.drop_eq_getElem_cons hi,
            List.drop_eq_getElem_cons hj]
          by_cases heq : a[i] = b[j]
          · simp only [if_pos heq]
            rw [heq, Lcs.size_cons_self, List.length_cons, ih (by omega)]
          · simp only [if_neg heq]
            rw [Lcs.size_cons_ne heq, ← List.drop_eq_getElem_cons hi,
              ← List.drop_eq_getElem_cons hj]
            have hdown : entry (lcsTable a b) (i + 1) j = _ :=
              entry_lcsTable hi (Nat.le_of_lt hj)
            have hright : entry (lcsTable a b) i (j + 1) = _ :=
              entry_lcsTable (Nat.le_of_lt hi) hj
            by_cases hle : entry (lcsTable a b) i (j + 1) ≤
                entry (lcsTable a b) (i + 1) j
            · rw [if_pos hle, ih (by omega), Nat.max_eq_left]
              rwa [hdown, hright] at hle
            · rw [if_neg hle, ih (by omega), Nat.max_eq_right]
              rw [hdown, hright] at hle
              omega
        · have hget : b[j]? = none := List.getElem?_eq_none (by omega)
          rw [lcsWalk, hget, List.drop_eq_nil_of_le (by omega : b.length ≤ j),
            Lcs.size_nil_right]
          cases a[i]? <;> rfl
      · have hget : a[i]? = none := List.getElem?_eq_none (by omega)
        rw [lcsWalk, hget, List.drop_eq_nil_of_le (by omega : a.length ≤ i),
          Lcs.size_nil]
        rfl

theorem lcsPairs_matching (a b : List T) : Lcs.Matching a b (lcsPairs a b) :=
  ⟨lcsWalk_forward _ _ _ _, fun _ hp => (lcsWalk_matches hp).2.2⟩

theorem length_lcsPairs (a b : List T) :
    (lcsPairs a b).length = Lcs.size a b :=
  length_lcsWalk (by omega)

end Table

-- == diff parts

namespace DiffPart

/-- What a part has of the first text. -/
def old : DiffPart → List (List Char)
  | equal s => [s]
  | delete s => [s]
  | insert _ => []

/-- What a part has of the second text. -/
def new : DiffPart → List (List Char)
  | equal s => [s]
  | delete _ => []
  | insert s => [s]

/-- Two parts of one kind. -/
def Alike : DiffPart → DiffPart → Prop
  | equal _, equal _ => True
  | delete _, delete _ => True
  | insert _, insert _ => True
  | _, _ => False

end DiffPart

open DiffPart

theorem elements_eq {xs : List (List Char)} {i stop : Nat}
    (hstop : stop ≤ xs.length) :
    elements xs i stop = .ok ((xs.drop i).take (stop - i)) := by
  unfold elements
  rw [mapM_eq_ok]
  generalize hn : stop - i = n
  induction n generalizing i with
  | zero => exact .nil
  | succ n ih =>
      have hi : i < xs.length := by omega
      rw [List.range'_succ, List.drop_eq_getElem_cons hi, List.take_succ_cons]
      refine .cons (index_eq_ok.mpr (List.getElem?_eq_getElem hi)) ?_
      exact ih (by omega)

theorem flatMap_old (dels inss : List (List Char)) :
    (dels.map delete ++ inss.map insert).flatMap old = dels := by
  rw [List.flatMap_append, List.flatMap_map, List.flatMap_map]
  simp [old]

theorem flatMap_new (dels inss : List (List Char)) :
    (dels.map delete ++ inss.map insert).flatMap new = inss := by
  rw [List.flatMap_append, List.flatMap_map, List.flatMap_map]
  simp [new]

variable {a b : List (List Char)}

/-- The parts of a matching, with the ends of the lists behind it, are the
two lists. -/
theorem diffParts_spec {pairs : List (Nat × Nat)} {i j : Nat}
    (h : Lcs.Matching a b pairs)
    (hstart : ∀ p ∈ pairs, i ≤ p.1 ∧ j ≤ p.2) :
    ∃ parts, diffParts a b (pairs ++ [(a.length, b.length)]) i j = .ok parts ∧
      parts.flatMap old = a.drop i ∧ parts.flatMap new = b.drop j := by
  induction pairs generalizing i j with
  | nil =>
      refine ⟨(a.drop i).map delete ++ (b.drop j).map insert, ?_,
        flatMap_old _ _, flatMap_new _ _⟩
      rw [List.nil_append, diffParts, elements_eq (Nat.le_refl _),
        elements_eq (Nat.le_refl _)]
      simp only [ok_bind, Nat.lt_irrefl, if_false, diffParts]
      rw [List.take_of_length_le (by rw [List.length_drop]),
        List.take_of_length_le (by rw [List.length_drop])]
      exact congrArg Except.ok (List.append_nil _)
  | cons p pairs ih =>
      obtain ⟨pi, pj⟩ := p
      obtain ⟨hp, hforward⟩ := List.pairwise_cons.mp h.forward
      obtain ⟨⟨x, hx, hy⟩, hequal⟩ := List.forall_mem_cons.mp h.equal
      obtain ⟨⟨hi, hj⟩, -⟩ := List.forall_mem_cons.mp hstart
      obtain ⟨hlt, -⟩ := List.getElem?_eq_some_iff.mp hx
      obtain ⟨hlt', -⟩ := List.getElem?_eq_some_iff.mp hy
      obtain ⟨parts, hparts, hold, hnew⟩ :=
        @ih (pi + 1) (pj + 1) ⟨hforward, hequal⟩ hp
      refine ⟨((a.drop i).take (pi - i)).map delete ++
        ((b.drop j).take (pj - j)).map insert ++ equal x :: parts, ?_, ?_, ?_⟩
      · rw [List.cons_append, diffParts, elements_eq (Nat.le_of_lt hlt),
          elements_eq (Nat.le_of_lt hlt'), hparts, index_eq_ok.mpr hx]
        simp only [ok_bind, if_pos hlt]
        rfl
      · rw [List.flatMap_append, flatMap_old, List.flatMap_cons, hold]
        exact seg_append hi hx
      · rw [List.flatMap_append, flatMap_new, List.flatMap_cons, hnew]
        exact seg_append hj hy

theorem diffParts_lcs (a b : List (List Char)) :
    ∃ parts,
      diffParts a b (lcsPairs a b ++ [(a.length, b.length)]) 0 0 = .ok parts ∧
      parts.flatMap old = a ∧ parts.flatMap new = b :=
  diffParts_spec (lcsPairs_matching a b) fun _ _ =>
    ⟨Nat.zero_le _, Nat.zero_le _⟩

-- == coalescing

/-- A part pushed behind another one stays behind it, or the two become
one of their kind. -/
theorem pushPart_concat (init : List WordDiff) (last op : WordDiff) :
    (pushPart (init ++ [last]) op = init ++ [last] ++ [op] ∧
        ¬ Alike last op) ∨
      ∃ m, pushPart (init ++ [last]) op = init ++ [m] ∧
        m.old.flatten = last.old.flatten ++ op.old.flatten ∧
        m.new.flatten = last.new.flatten ++ op.new.flatten ∧
        ∀ p, Alike p m ↔ Alike p last := by
  unfold pushPart
  rw [List.getLast?_concat, List.dropLast_concat]
  cases last with
  | equal prev =>
      cases op with
      | equal s =>
          exact .inr ⟨_, rfl, by simp [old], by simp [new],
            fun p => by cases p <;> exact Iff.rfl⟩
      | delete s => exact .inl ⟨rfl, id⟩
      | insert s => exact .inl ⟨rfl, id⟩
  | delete prev =>
      cases op with
      | equal s => exact .inl ⟨rfl, id⟩
      | delete s =>
          exact .inr ⟨_, rfl, by simp [old], by simp [new],
            fun p => by cases p <;> exact Iff.rfl⟩
      | insert s => exact .inl ⟨rfl, id⟩
  | insert prev =>
      cases op with
      | equal s => exact .inl ⟨rfl, id⟩
      | delete s => exact .inl ⟨rfl, id⟩
      | insert s =>
          exact .inr ⟨_, rfl, by simp [old], by simp [new],
            fun p => by cases p <;> exact Iff.rfl⟩

/-- A list of parts with no two neighbours of one kind. -/
def Coalesced (parts : List WordDiff) : Prop :=
  parts.IsChain fun p q => ¬ Alike p q

/-- Pushing a part adds what it has to both sides, and keeps the
neighbours of different kinds. -/
theorem pushPart_spec {out : List WordDiff} (op : WordDiff)
    (h : Coalesced out) :
    ((pushPart out op).flatMap old).flatten =
        (out.flatMap old).flatten ++ op.old.flatten ∧
      ((pushPart out op).flatMap new).flatten =
        (out.flatMap new).flatten ++ op.new.flatten ∧
      Coalesced (pushPart out op) := by
  rcases List.eq_nil_or_concat out with rfl | ⟨init, last, rfl⟩
  · have hnil : pushPart [] op = [op] := by
      cases op <;> rfl
    rw [hnil]
    refine ⟨?_, ?_, List.isChain_singleton _⟩
    · rw [List.flatMap_singleton]
      rfl
    · rw [List.flatMap_singleton]
      rfl
  · rw [List.concat_eq_append] at h ⊢
    rcases pushPart_concat init last op with ⟨heq, hne⟩ |
      ⟨m, heq, hold, hnew, halike⟩
    · rw [heq]
      refine ⟨?_, ?_, ?_⟩
      · rw [List.flatMap_append, List.flatten_append, List.flatMap_singleton]
      · rw [List.flatMap_append, List.flatten_append, List.flatMap_singleton]
      · refine List.isChain_append.mpr ⟨h, List.isChain_singleton _, ?_⟩
        intro p hp q hq
        rw [List.getLast?_concat] at hp
        cases hp
        cases hq
        exact hne
    · rw [heq]
      refine ⟨?_, ?_, ?_⟩
      · rw [List.flatMap_append, List.flatMap_append, List.flatMap_singleton,
          List.flatMap_singleton, List.flatten_append, List.flatten_append,
          hold, List.append_assoc]
      · rw [List.flatMap_append, List.flatMap_append, List.flatMap_singleton,
          List.flatMap_singleton, List.flatten_append, List.flatten_append,
          hnew, List.append_assoc]
      · obtain ⟨hinit, -, hlast⟩ := List.isChain_append.mp h
        refine List.isChain_append.mpr ⟨hinit, List.isChain_singleton _, ?_⟩
        intro p hp q hq
        cases hq
        exact fun hpm => hlast p hp last rfl ((halike p).mp hpm)

theorem foldl_pushPart (ops : List WordDiff) {out : List WordDiff}
    (h : Coalesced out) :
    ((ops.foldl pushPart out).flatMap old).flatten =
        (out.flatMap old).flatten ++ (ops.flatMap old).flatten ∧
      ((ops.foldl pushPart out).flatMap new).flatten =
        (out.flatMap new).flatten ++ (ops.flatMap new).flatten ∧
      Coalesced (ops.foldl pushPart out) := by
  induction ops generalizing out with
  | nil => exact ⟨(List.append_nil _).symm, (List.append_nil _).symm, h⟩
  | cons op ops ih =>
      obtain ⟨hold, hnew, hpush⟩ := pushPart_spec op h
      obtain ⟨hold', hnew', hall⟩ := ih hpush
      refine ⟨?_, ?_, hall⟩
      · rw [List.foldl_cons, hold', hold, List.flatMap_cons,
          List.flatten_append, List.append_assoc]
      · rw [List.foldl_cons, hnew', hnew, List.flatMap_cons,
          List.flatten_append, List.append_assoc]

/-- Coalescing keeps both sides and leaves no two neighbours of one kind. -/
theorem coalesce_spec (ops : List WordDiff) :
    ((coalesce ops).flatMap old).flatten = (ops.flatMap old).flatten ∧
      ((coalesce ops).flatMap new).flatten = (ops.flatMap new).flatten ∧
      Coalesced (coalesce ops) :=
  foldl_pushPart ops List.isChain_nil

-- == tokens

/-- The tokens are the text. -/
theorem flatten_tokenize (U : Unicode) (s : List Char) :
    (tokenize U s).flatten = s := by
  fun_induction tokenize U s with
  | case1 => rfl
  | case2 c s hword ih =>
      rw [List.flatten_cons, ih, List.cons_append,
        List.takeWhile_append_dropWhile]
  | case3 c s hword hspace ih =>
      rw [List.flatten_cons, ih, List.cons_append,
        List.takeWhile_append_dropWhile]
  | case4 c s hword hspace ih =>
      rw [List.flatten_cons, ih]
      rfl

-- == the law

/-- Matchings are largest, a line diff has the lines of both texts, and a
word diff the two texts without neighbours of one kind. -/
theorem token_diff_law {T : Type _} [DecidableEq T] (s t : List T) (U : Unicode)
    (a b : Rope) :
    (Lcs.Matching s t (lcsPairs s t) ∧
        ∀ ps, Lcs.Matching s t ps → ps.length ≤ (lcsPairs s t).length) ∧
      (∃ parts, lineDiff a b = .ok parts ∧
        parts.flatMap old = splitLines a ∧
        parts.flatMap new = splitLines b ∧
        joinLines (parts.flatMap old) = a ∧
        joinLines (parts.flatMap new) = b) ∧
      ∃ parts, wordDiff U a b = .ok parts ∧
        (parts.flatMap old).flatten = a ∧
        (parts.flatMap new).flatten = b ∧ Coalesced parts := by
  refine ⟨⟨lcsPairs_matching s t, fun ps hps => ?_⟩, ?_, ?_⟩
  · rw [length_lcsPairs]
    exact hps.length_le
  · obtain ⟨parts, hparts, hold, hnew⟩ :=
      diffParts_lcs (splitLines a) (splitLines b)
    refine ⟨parts, hparts, hold, hnew, ?_, ?_⟩
    · rw [hold, join_split]
    · rw [hnew, join_split]
  · obtain ⟨raw, hraw, hold, hnew⟩ :=
      diffParts_lcs (tokenize U a) (tokenize U b)
    obtain ⟨hold', hnew', hcoalesced⟩ := coalesce_spec raw
    refine ⟨coalesce raw, ?_, ?_, ?_, hcoalesced⟩
    · rw [wordDiff, hraw]
      rfl
    · rw [hold', hold, flatten_tokenize]
    · rw [hnew', hnew, flatten_tokenize]

/-- A line diff has neighbours of one kind. -/
theorem not_token_diff_law_lines :
    ∃ parts, lineDiff "a\nb".toList "a\nb".toList = .ok parts ∧
      ¬ Coalesced parts := by
  refine ⟨[.equal ['a'], .equal ['b']], by decide, fun h => ?_⟩
  exact (List.isChain_cons_cons.mp h).1 trivial

end Zmax.Merge
