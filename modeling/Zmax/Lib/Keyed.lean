/-
Lists with one element for each key, in the order in which the keys came.

`put` adds an element, and where there is one with its key already, `pick`
says what becomes of the two, in the place of the first. After any number
of them a key has what `pick` makes of all elements with that key
(`find_foldl_put`), and the keys are in the order of their first
occurrences (`keys_foldl_put`). A list of that kind is given by its keys
and what each of them has (`ext`).
-/
import Mathlib.Data.List.Basic
import Mathlib.Data.List.Nodup

namespace Keyed

variable {κ α : Type*} [DecidableEq κ]

/-- The keys at their first occurrences. -/
def firsts : List κ → List κ
  | [] => []
  | k :: ks => k :: (firsts ks).filter (· ≠ k)

variable (key : α → κ) (pick : α → α → α)

def put : List α → α → List α
  | [], x => [x]
  | y :: ys, x => if key y = key x then pick y x :: ys else y :: put ys x

/-- The element with a key. -/
def find (k : κ) (xs : List α) : Option α := xs.find? fun x => key x = k

/-- What becomes of another element with the key. -/
def pickAfter (found : Option α) (x : α) : α := found.elim x (pick · x)

variable {key pick} {xs ys : List α} {x y : α} {k : κ} {ks js : List κ}

-- == first keys

attribute [grind =] firsts put

theorem mem_firsts : k ∈ firsts ks ↔ k ∈ ks := by
  induction ks with
  | nil => rfl
  | cons j ks ih =>
      rw [firsts, List.mem_cons, List.mem_cons, List.mem_filter, ih,
        decide_eq_true_eq]
      by_cases hk : k = j
      · simp [hk]
      · simp [hk]

theorem nodup_firsts (ks : List κ) : (firsts ks).Nodup := by
  induction ks with
  | nil => exact List.nodup_nil
  | cons k ks ih =>
      refine List.nodup_cons.mpr ⟨fun h => ?_, ih.filter _⟩
      exact of_decide_eq_true (List.mem_filter.mp h).2 rfl

theorem firsts_append (ks js : List κ) :
    firsts (ks ++ js) = firsts ks ++ (firsts js).filter (· ∉ ks) := by
  induction ks with
  | nil => simp [firsts]
  | cons k ks ih =>
      rw [List.cons_append, firsts, firsts, ih, List.filter_append,
        List.filter_filter, List.cons_append]
      congr 2
      refine List.filter_congr fun j _ => ?_
      simp [not_or]

theorem firsts_of_nodup (h : ks.Nodup) : firsts ks = ks := by
  induction ks with
  | nil => rfl
  | cons k ks ih =>
      obtain ⟨hk, hks⟩ := List.nodup_cons.mp h
      rw [firsts, ih hks, List.filter_eq_self.mpr]
      rintro j hj
      refine decide_eq_true ?_
      rintro rfl
      exact hk hj

/-- Behind some keys the elements may be left out that have one of
them. -/
theorem firsts_again {os : List κ} {p : α → Bool}
    (h : xs.map key = firsts (ks ++ os))
    (hp : ∀ x ∈ xs, p x = false → key x ∈ ks) :
    firsts (ks ++ (xs.filter p).map key) = xs.map key := by
  have hnodup : ((xs.filter p).map key).Nodup :=
    (h ▸ nodup_firsts _).sublist (List.filter_sublist.map _)
  have hfilter : ((xs.filter p).map key).filter (· ∉ ks)
      = (xs.map key).filter (· ∉ ks) := by
    rw [List.filter_map, List.filter_map, List.filter_filter]
    congr 1
    refine List.filter_congr fun x hx => ?_
    by_cases hpx : p x = true
    · simp [hpx]
    · have hmem := hp x hx (Bool.eq_false_iff.mpr hpx)
      simp [Function.comp, hmem]
  have hnil : (firsts ks).filter (· ∉ ks) = [] :=
    List.filter_eq_nil_iff.mpr fun k hk => by simpa using mem_firsts.mp hk
  rw [firsts_append, firsts_of_nodup hnodup, hfilter, h, firsts_append,
    List.filter_append, hnil, List.nil_append, List.filter_filter]
  congr 1
  exact List.filter_congr fun k _ => Bool.and_self _

-- == putting

theorem put_of_not_mem (h : key x ∉ xs.map key) :
    put key pick xs x = xs ++ [x] := by
  induction xs with
  | nil => rfl
  | cons y xs ih =>
      rw [List.map_cons, List.mem_cons, not_or] at h
      rw [put, if_neg (Ne.symm h.1), ih h.2]
      rfl

/-- An element with a key that is there goes where that is. -/
theorem put_of_get {i : Nat} (hnodup : (xs.map key).Nodup)
    (hy : xs[i]? = some y) (hkey : key y = key x) :
    put key pick xs x = xs.set i (pick y x) := by
  induction xs generalizing i with
  | nil => cases hy
  | cons z xs ih =>
      obtain ⟨hz, hnodup⟩ := List.nodup_cons.mp hnodup
      cases i with
      | zero =>
          injection hy with hy
          subst hy
          rw [put, if_pos hkey]
          rfl
      | succ i =>
          have hmem : y ∈ xs := List.mem_of_getElem? hy
          have hne : key z ≠ key x := fun h =>
            hz (h.trans hkey.symm ▸ List.mem_map_of_mem hmem)
          rw [put, if_neg hne, ih hnodup hy]
          rfl

section

variable (hpick : ∀ x y, key x = key y → key (pick x y) = key x)

include hpick

theorem keys_put : (put key pick xs x).map key
    = if key x ∈ xs.map key then xs.map key else xs.map key ++ [key x] := by
  induction xs with
  | nil => rfl
  | cons y xs ih =>
      unfold put
      by_cases hy : key y = key x
      · rw [if_pos hy, List.map_cons, hpick y x hy, List.map_cons,
          if_pos (hy ▸ List.mem_cons_self)]
      · rw [if_neg hy, List.map_cons, ih, List.map_cons]
        by_cases hx : key x ∈ xs.map key
        · rw [if_pos hx, if_pos (List.mem_cons_of_mem _ hx)]
        · rw [if_neg hx, if_neg fun h => (List.mem_cons.mp h).elim
            (fun h => hy h.symm) hx]
          rfl

/-- The keys of elements that are put come in the order of their first
occurrences. -/
theorem keys_foldl_put (h : xs.map key = firsts ks) :
    (ys.foldl (put key pick) xs).map key = firsts (ks ++ ys.map key) := by
  induction ys generalizing xs ks with
  | nil => rwa [List.map_nil, List.append_nil]
  | cons y ys ih =>
      have hstep : (put key pick xs y).map key = firsts (ks ++ [key y]) := by
        rw [keys_put hpick, h, firsts_append]
        by_cases hy : key y ∈ ks
        · rw [if_pos (mem_firsts.mpr hy)]
          simp [firsts, hy]
        · rw [if_neg (mt mem_firsts.mp hy)]
          simp [firsts, hy]
      rw [List.foldl_cons, ih hstep, List.map_cons, List.append_assoc]
      rfl

theorem find_put_self : find key (key x) (put key pick xs x)
    = some (pickAfter pick (find key (key x) xs) x) := by
  induction xs with
  | nil => simp [put, find, pickAfter]
  | cons y xs ih =>
      unfold put
      by_cases hy : key y = key x
      · rw [if_pos hy]
        have hkey := (hpick y x hy).trans hy
        simp [find, hy, hkey, pickAfter]
      · rw [if_neg hy]
        unfold find at ih ⊢
        rw [List.find?_cons_of_neg (by simpa using hy), ih,
          List.find?_cons_of_neg (by simpa using hy)]

theorem find_put_ne (h : key x ≠ k) :
    find key k (put key pick xs x) = find key k xs := by
  induction xs with
  | nil => simp [put, find, h]
  | cons y xs ih =>
      unfold put
      by_cases hy : key y = key x
      · rw [if_pos hy]
        have hkey := (hpick y x hy).trans hy
        simp [find, hy, hkey, h]
      · rw [if_neg hy]
        unfold find at ih ⊢
        rw [List.find?_cons, List.find?_cons, ih]

/-- A key has what `pick` makes of all elements with that key. -/
theorem find_foldl_put (k : κ) :
    find key k (ys.foldl (put key pick) xs)
      = (ys.filter (key · = k)).foldl
        (fun found y => some (pickAfter pick found y)) (find key k xs) := by
  induction ys generalizing xs with
  | nil => rfl
  | cons y ys ih =>
      rw [List.foldl_cons, ih]
      by_cases hy : key y = k
      · subst hy
        rw [List.filter_cons_of_pos (by simp), List.foldl_cons,
          find_put_self hpick]
      · rw [List.filter_cons_of_neg (by simpa using hy),
          find_put_ne hpick hy]

end

-- == finding

theorem key_of_find (h : find key k xs = some x) : key x = k := by
  have hk := @List.find?_some _ (fun x => decide (key x = k)) _ _ h
  exact of_decide_eq_true hk

theorem mem_of_find (h : find key k xs = some x) : x ∈ xs :=
  List.mem_of_find?_eq_some h

theorem find_of_mem (hnodup : (xs.map key).Nodup) (h : x ∈ xs) :
    find key (key x) xs = some x := by
  induction xs with
  | nil => cases h
  | cons y xs ih =>
      obtain ⟨hy, hnodup⟩ := List.nodup_cons.mp hnodup
      unfold find at ih ⊢
      rcases List.mem_cons.mp h with rfl | h
      · rw [List.find?_cons_of_pos (by simp)]
      · have hne : key y ≠ key x := fun heq =>
          hy (heq ▸ List.mem_map_of_mem h)
        rw [List.find?_cons_of_neg (by simpa using hne), ih hnodup h]

/-- No other element has the key. -/
theorem filter_key (hnodup : (xs.map key).Nodup) (h : x ∈ xs)
    (p : α → Bool) :
    (xs.filter p).filter (key · = key x) = [x].filter p := by
  have honly : xs.filter (key · = key x) = [x] := by
    induction xs with
    | nil => cases h
    | cons y xs ih =>
        obtain ⟨hy, hnodup⟩ := List.nodup_cons.mp hnodup
        rcases List.mem_cons.mp h with rfl | h
        · have hnil : xs.filter (key · = key x) = [] :=
            List.filter_eq_nil_iff.mpr fun z hz hk =>
              hy (of_decide_eq_true hk ▸ List.mem_map_of_mem hz)
          rw [List.filter_cons_of_pos (by simp), hnil]
        · have hne : key y ≠ key x := fun heq =>
            hy (heq ▸ List.mem_map_of_mem h)
          rw [List.filter_cons_of_neg (by simpa using hne), ih hnodup h]
  rw [List.filter_filter, ← honly, List.filter_filter]
  exact List.filter_congr fun y _ => Bool.and_comm _ _

/-- Keys and what they have determine a list. -/
theorem ext (hnodup : (xs.map key).Nodup) (hkeys : xs.map key = ys.map key)
    (hfind : ∀ k, find key k xs = find key k ys) : xs = ys := by
  have hlen : xs.length = ys.length := by
    simpa using congrArg List.length hkeys
  refine List.ext_getElem hlen fun i hi hi' => ?_
  have hkey : key xs[i] = key ys[i] := by
    have h := List.getElem_map key (l := xs) (i := i) (h := by simpa using hi)
    rw [← h, ← List.getElem_map key (l := ys) (h := by simpa using hi')]
    congr 1
  have hx := find_of_mem hnodup (List.getElem_mem hi)
  have hy := find_of_mem (hkeys ▸ hnodup) (List.getElem_mem hi')
  rw [hkey, hfind, hy] at hx
  exact (Option.some.inj hx).symm

end Keyed
