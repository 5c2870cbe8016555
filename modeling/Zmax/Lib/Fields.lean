/-
Pieces of a list between delimiters.

`enclose` puts a delimiter in front of the pieces and behind each of them.
Where none of them has one inside, the places of the delimiters are known
(`places_enclose`), and each piece lies between two of them
(`between_enclose`), as far apart as it is long (`gaps_enclose`).
-/
import Mathlib.Data.List.Induction

namespace Fields

variable {α : Type*} [DecidableEq α] (d : α)

/-- The pieces with delimiters around them. -/
def enclose (pieces : List (List α)) : List α :=
  d :: pieces.flatMap (· ++ [d])

/-- The places of the delimiters in a list that starts at place `i`. -/
def places (i : Nat) (xs : List α) : List Nat :=
  ((xs.zipIdx i).filter fun (x, _) => x = d).map Prod.snd

/-- Where pieces end that start at place `i`. -/
def ends : Nat → List (List α) → List Nat
  | _, [] => []
  | i, p :: ps => (i + p.length) :: ends (i + p.length + 1) ps

variable {d} {p xs ys : List α} {ps : List (List α)} {i : Nat}

attribute [grind =] ends

theorem places_self : places d i (d :: xs) = i :: places d (i + 1) xs := by
  unfold places
  rw [List.zipIdx_cons, List.filter_cons, if_pos (decide_eq_true rfl),
    List.map_cons]

theorem places_append (h : d ∉ p) :
    places d i (p ++ xs) = places d (i + p.length) xs := by
  unfold places
  rw [List.zipIdx_append, List.filter_append, List.map_append]
  have hnil : (p.zipIdx i).filter (fun (x, _) => x = d) = [] := by
    refine List.filter_eq_nil_iff.mpr fun y hy hd => h ?_
    have hmem := List.fst_mem_of_mem_zipIdx hy
    rwa [of_decide_eq_true hd] at hmem
  rw [hnil]
  rfl

theorem places_pieces (h : ∀ p ∈ ps, d ∉ p) :
    places d i (ps.flatMap (· ++ [d])) = ends i ps := by
  induction ps generalizing i with
  | nil => rfl
  | cons p ps ih =>
      obtain ⟨hp, hps⟩ := List.forall_mem_cons.mp h
      rw [List.flatMap_cons, List.append_assoc, places_append hp,
        List.singleton_append, places_self, ih hps]
      rfl

theorem places_enclose (h : ∀ p ∈ ps, d ∉ p) :
    places d i (enclose d ps) = i :: ends (i + 1) ps := by
  unfold enclose
  rw [places_self, places_pieces h]

omit [DecidableEq α] in
theorem length_ends : (ends i ps).length = ps.length := by
  induction ps generalizing i with
  | nil => rfl
  | cons p ps ih => rw [ends, List.length_cons, List.length_cons, ih]

theorem length_places_enclose (h : ∀ p ∈ ps, d ∉ p) :
    (places d 0 (enclose d ps)).length = ps.length + 1 := by
  rw [places_enclose h, List.length_cons, length_ends]

omit [DecidableEq α] in
theorem not_mem_enclose {x : α} (hx : x ≠ d) (h : ∀ p ∈ ps, x ∉ p) :
    x ∉ enclose d ps := by
  intro hmem
  rcases List.mem_cons.mp hmem with heq | hmem
  · exact hx heq
  · obtain ⟨p, hp, hmem⟩ := List.mem_flatMap.mp hmem
    rcases List.mem_append.mp hmem with hmem | hmem
    · exact h p hp hmem
    · exact hx (List.mem_singleton.mp hmem)

omit [DecidableEq α] in
theorem getLast?_enclose : (enclose d ps).getLast? = some d := by
  unfold enclose
  induction ps using List.reverseRecOn with
  | nil => rfl
  | append_singleton ps p _ =>
      rw [List.flatMap_append, List.flatMap_singleton, ← List.append_assoc,
        ← List.cons_append, List.getLast?_concat]

/-- Neighbouring delimiters, each with the next one. -/
def pairs (places : List Nat) : List (Nat × Nat) := places.zip places.tail

omit [DecidableEq α] in
theorem pairs_cons : pairs (i :: ends (i + 1) (p :: ps)) =
    (i, i + 1 + p.length) ::
      pairs ((i + 1 + p.length) :: ends (i + 1 + p.length + 1) ps) := rfl

omit [DecidableEq α] in
theorem gaps_ends :
    (pairs (i :: ends (i + 1) ps)).map (fun (a, b) => b - a) =
      ps.map fun p => p.length + 1 := by
  induction ps generalizing i with
  | nil => rfl
  | cons p ps ih =>
      rw [pairs_cons, List.map_cons, ih, List.map_cons]
      refine congrArg (· :: _) ?_
      show i + 1 + p.length - i = p.length + 1
      omega

theorem gaps_enclose (h : ∀ p ∈ ps, d ∉ p) :
    (pairs (places d 0 (enclose d ps))).map (fun (a, b) => b - a) =
      ps.map fun p => p.length + 1 := by
  rw [places_enclose h, gaps_ends]

omit [DecidableEq α] in
theorem between_ends (hlen : ys.length = i + 1) :
    (pairs (i :: ends (i + 1) ps)).map (fun (a, b) =>
      ((ys ++ ps.flatMap (· ++ [d])).drop (a + 1)).take (b - (a + 1))) =
      ps := by
  induction ps generalizing i ys with
  | nil => rfl
  | cons p ps ih =>
      have hnext : (ys ++ (p ++ [d])).length = i + 1 + p.length + 1 := by
        rw [List.length_append, List.length_append, hlen,
          List.length_singleton]
        rfl
      rw [pairs_cons, List.map_cons]
      refine congrArg₂ List.cons ?_ ?_
      · show ((ys ++ (p :: ps).flatMap (· ++ [d])).drop (i + 1)).take
          (i + 1 + p.length - (i + 1)) = p
        rw [← hlen, List.drop_left, Nat.add_sub_cancel_left,
          List.flatMap_cons, List.append_assoc, List.take_left]
      · rw [List.flatMap_cons, ← List.append_assoc]
        exact ih hnext

theorem between_enclose (h : ∀ p ∈ ps, d ∉ p) :
    (pairs (places d 0 (enclose d ps))).map (fun (a, b) =>
      ((enclose d ps).drop (a + 1)).take (b - (a + 1))) = ps := by
  rw [places_enclose h]
  exact between_ends (rfl : [d].length = 0 + 1)

end Fields
