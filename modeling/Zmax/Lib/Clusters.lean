/-
Texts cut into clusters at the places where there is a boundary, and what
is collected of the runs of clusters of one kind.

Where a boundary is seen with the letter behind it, and what is in front of
it is not seen from behind, a text that has a boundary somewhere is cut as
its two parts are (`clusters_append`). What is collected of two parts is
what the parts have apart from the run in the middle, and that run, which
is there once (`collect_append`).
-/
import Mathlib.Data.List.Basic
import Mathlib.Data.List.GetD

namespace Clusters

variable {α β : Type*}

-- == cutting

/-- A letter in front of clusters: in one of its own, or in the first. -/
def push (a : α) (own : Bool) : List (List α) → List (List α)
  | [] => [[a]]
  | cluster :: rest =>
      if own then [a] :: cluster :: rest else (a :: cluster) :: rest

/-- A list cut before each place where there is a boundary. The first
letter is at place `i`. -/
def cut (bd : Nat → Bool) (i : Nat) : List α → List (List α)
  | [] => []
  | a :: as => push a (bd (i + 1)) (cut bd (i + 1) as)

def clusters (bd : List α → Nat → Bool) (text : List α) : List (List α) :=
  cut (bd text) 0 text

/-- Boundaries as they are seen reading on. -/
structure Lawful (bd : List α → Nat → Bool) : Prop where
  /-- No letter behind the next one matters. -/
  ahead : ∀ u v i, i < u.length → bd (u ++ v) i = bd u i
  /-- What is in front of a boundary does not matter behind it. -/
  restart : ∀ u v, bd (u ++ v) u.length = true →
    ∀ i, 0 < i → i < v.length → bd (u ++ v) (u.length + i) = bd v i

variable {bd bd' : Nat → Bool} {u v : List α}

attribute [grind =] cut

@[simp] theorem flatten_push (a : α) (own : Bool) (xs : List (List α)) :
    (push a own xs).flatten = a :: xs.flatten := by
  cases xs with
  | nil => rfl
  | cons cluster rest => cases own <;> rfl

theorem push_own (a : α) (xs : List (List α)) :
    push a true xs = [a] :: xs := by
  cases xs <;> rfl

variable {xs : List (List α)} {as : List α}

theorem push_append (a : α) (own : Bool) (h : xs ≠ []) (ys : List (List α)) :
    push a own (xs ++ ys) = push a own xs ++ ys := by
  cases xs with
  | nil => exact absurd rfl h
  | cons cluster rest => cases own <;> rfl

@[simp] theorem flatten_cut (i : Nat) (as : List α) :
    (cut bd i as).flatten = as := by
  induction as generalizing i with
  | nil => rfl
  | cons a as ih => rw [cut, flatten_push, ih]

theorem cut_ne_nil {i : Nat} (h : as ≠ []) : cut bd i as ≠ [] := by
  intro hnil
  have hflatten := @flatten_cut α bd i as
  rw [hnil] at hflatten
  exact h hflatten.symm

/-- Only the boundaries behind the first letter matter. -/
theorem cut_congr {i j : Nat}
    (h : ∀ k, 0 < k → k < as.length → bd (i + k) = bd' (j + k)) :
    cut bd i as = cut bd' j as := by
  induction as generalizing i j with
  | nil => rfl
  | cons a as ih =>
      have hrest : cut bd (i + 1) as = cut bd' (j + 1) as := by
        refine ih fun k _ hlt => ?_
        rw [Nat.add_assoc, Nat.add_assoc]
        exact h (1 + k) (by omega) (by rw [List.length_cons]; omega)
      rw [cut, cut, hrest]
      cases as with
      | nil => rfl
      | cons a' as =>
          rw [h 1 Nat.one_pos (by simp)]

/-- What is cut at a boundary is cut in two. -/
theorem cut_append {i : Nat} (hbd : bd (i + u.length) = true) (v : List α) :
    cut bd i (u ++ v) = cut bd i u ++ cut bd (i + u.length) v := by
  induction u generalizing i with
  | nil => rfl
  | cons a u ih =>
      have hlen : i + (a :: u).length = i + 1 + u.length := by
        rw [List.length_cons]
        omega
      rw [hlen] at hbd ⊢
      rw [List.cons_append, cut, cut, ih hbd]
      cases u with
      | nil =>
          rw [show bd (i + 1) = true from hbd, push_own]
          rfl
      | cons a' u =>
          exact push_append a _ (cut_ne_nil (List.cons_ne_nil _ _)) _

theorem clusters_append {bd : List α → Nat → Bool} (h : Lawful bd)
    (hbd : bd (u ++ v) u.length = true) :
    clusters bd (u ++ v) = clusters bd u ++ clusters bd v := by
  have hcut := @cut_append α (bd (u ++ v)) u 0 (by rwa [Nat.zero_add]) v
  unfold clusters
  rw [hcut]
  congr 1
  · exact cut_congr fun k _ hlt => by
      rw [Nat.zero_add]
      exact h.ahead u v k hlt
  · refine cut_congr fun k hk hlt => ?_
    rw [Nat.zero_add, Nat.zero_add]
    exact h.restart u v hbd k hk hlt

-- == starts

/-- Where the lists of a list start in what they make up. -/
def offsets : List (List α) → List Nat
  | [] => []
  | xs :: rest => 0 :: (offsets rest).map (· + xs.length)

/-- The places of a list at `i` where a cluster starts. -/
def starts (bd : Nat → Bool) (i len : Nat) : List Nat :=
  (List.range len).filter fun k => k == 0 || bd (i + k)

attribute [grind =] offsets

@[simp] theorem length_offsets (xs : List (List α)) :
    (offsets xs).length = xs.length := by
  induction xs with
  | nil => rfl
  | cons x xs ih =>
      rw [offsets, List.length_cons, List.length_map, ih, List.length_cons]

/-- The first lists end where the next one starts. -/
theorem length_flatten_take (xs : List (List α)) (n : Nat) :
    (xs.take n).flatten.length = (offsets xs).getD n xs.flatten.length := by
  induction xs generalizing n with
  | nil => rw [List.take_nil, offsets, List.getD_nil]
  | cons x xs ih =>
      cases n with
      | zero => rfl
      | succ n =>
          rw [List.take_succ_cons, List.flatten_cons, List.length_append, ih,
            offsets, List.getD_cons_succ, List.flatten_cons,
            List.length_append, Nat.add_comm x.length xs.flatten.length,
            List.getD_map, Nat.add_comm]

theorem offsets_push (a : α) (own : Bool) (h : xs ≠ []) :
    offsets (push a own xs) =
      0 :: (if own then offsets xs else (offsets xs).tail).map (· + 1) := by
  cases xs with
  | nil => exact absurd rfl h
  | cons x xs =>
      cases own with
      | true => rfl
      | false =>
          rw [push, if_neg Bool.false_ne_true, if_neg Bool.false_ne_true,
            offsets, offsets, List.tail_cons, List.map_map]
          rfl

theorem starts_succ (i len : Nat) :
    starts bd i (len + 1) =
      0 :: ((List.range len).filter fun k => bd (i + 1 + k)).map (· + 1) := by
  rw [starts, List.range_succ_eq_map, List.filter_cons]
  refine (if_pos rfl).trans ?_
  rw [List.filter_map]
  congr 3
  funext k
  rw [Function.comp_apply, Nat.add_assoc, Nat.add_comm 1 k]
  rfl

/-- Clusters start where there is a boundary. -/
theorem offsets_cut (i : Nat) (as : List α) :
    offsets (cut bd i as) = starts bd i as.length := by
  induction as generalizing i with
  | nil => rfl
  | cons a as ih =>
      cases as with
      | nil => rfl
      | cons a' as =>
          have hshift : ((fun k => bd (i + 1 + k)) ∘ Nat.succ) =
              fun k => bd (i + 1 + 1 + k) := by
            funext k
            rw [Function.comp_apply, Nat.add_assoc (i + 1), Nat.add_comm 1 k]
          rw [cut, offsets_push _ _ (cut_ne_nil (List.cons_ne_nil _ _)), ih,
            List.length_cons (a := a), starts_succ i, List.length_cons,
            List.range_succ_eq_map, List.filter_cons, starts_succ (i + 1),
            List.filter_map, hshift]
          rfl

/-- Lists are found again in what they make up by where they start. -/
theorem map_slice_offsets (xs : List (List α)) :
    ((offsets xs).zipIdx.map fun (start, k) =>
      (xs.flatten.take (((offsets xs)[k + 1]?).getD xs.flatten.length)).drop
        start) = xs := by
  refine List.ext_getElem? fun k => ?_
  rw [List.getElem?_map, List.getElem?_zipIdx]
  cases hk : (offsets xs)[k]? with
  | none =>
      rw [List.getElem?_eq_none_iff, length_offsets] at hk
      exact (List.getElem?_eq_none hk).symm
  | some start =>
      have hlt : k < xs.length :=
        length_offsets xs ▸ (List.getElem?_eq_some_iff.mp hk).1
      have hstart : start = (xs.take k).flatten.length := by
        rw [length_flatten_take, List.getD_eq_getElem?_getD, hk]
        rfl
      have hstop : ((offsets xs)[k + 1]?).getD xs.flatten.length =
          (xs.take (k + 1)).flatten.length := by
        rw [length_flatten_take, List.getD_eq_getElem?_getD]
      have hparts : xs.flatten =
          (xs.take (k + 1)).flatten ++ (xs.drop (k + 1)).flatten := by
        rw [← List.flatten_append, List.take_append_drop]
      have hsucc : (xs.take (k + 1)).flatten =
          (xs.take k).flatten ++ xs[k] := by
        rw [List.take_succ_eq_append_getElem hlt, List.flatten_append,
          List.flatten_singleton]
      rw [Option.map_some, Option.map_some, Nat.zero_add]
      dsimp only
      rw [hstop, hparts, List.take_left, hsucc, hstart, List.drop_left,
        List.getElem?_eq_getElem hlt]

/-- The lists that make up one list are known by where they start. -/
theorem eq_of_offsets {ys : List (List α)} (h : xs.flatten = ys.flatten)
    (ho : offsets xs = offsets ys) : xs = ys := by
  rw [← map_slice_offsets xs, ← map_slice_offsets ys, h, ho]

/-- Every cluster but the first starts at a boundary. -/
theorem head_cut {P : α → Prop} (i : Nat)
    (h : ∀ k a, as[k + 1]? = some a → bd (i + (k + 1)) = true → P a) :
    (∀ c ∈ (cut bd i as).head?, c.head? = as.head?) ∧
      ∀ c ∈ (cut bd i as).tail, ∃ a ∈ c.head?, P a := by
  induction as generalizing i with
  | nil => exact ⟨nofun, nofun⟩
  | cons a as ih =>
      have ⟨hfirst, hrest⟩ := ih (i + 1) fun k b hb hbd => h (k + 1) b hb (by
        rwa [Nat.add_assoc, Nat.add_comm 1] at hbd)
      rw [cut]
      cases hcut : cut bd (i + 1) as with
      | nil =>
          refine ⟨fun c hc => ?_, nofun⟩
          cases hc
          rfl
      | cons c rest =>
          rw [hcut] at hfirst hrest
          cases hown : bd (i + 1) with
          | true =>
              refine ⟨fun x hx => ?_, fun x hx => ?_⟩
              · cases hx
                rfl
              · rcases List.mem_cons.mp hx with rfl | hx
                · cases as with
                  | nil => cases hcut
                  | cons b as =>
                      exact ⟨b, hfirst x rfl, h 0 b rfl hown⟩
                · exact hrest x hx
          | false =>
              refine ⟨fun x hx => ?_, hrest⟩
              cases hx
              rfl

/-- Two cuts of one list are the same if what `g` reads of the clusters is,
and it reads something of the first letter of each. -/
theorem eq_of_flatMap {g : α → List β} {ys : List (List α)}
    (h : xs.flatten = ys.flatten)
    (hmap : xs.map (·.flatMap g) = ys.map (·.flatMap g))
    (hx : ∀ x ∈ xs, ∃ a ∈ x.head?, g a ≠ [])
    (hy : ∀ y ∈ ys, ∃ a ∈ y.head?, g a ≠ []) : xs = ys := by
  -- What goes on behind the shorter of two first clusters is read.
  have hnil : ∀ {x y t : List α} {zs : List (List α)}, x = y ++ t →
      x.flatMap g = y.flatMap g → t <+: zs.flatten →
      (∀ z ∈ zs, ∃ a ∈ z.head?, g a ≠ []) → t = [] := by
    rintro x y t zs rfl hread ⟨u, hu⟩ hz
    rw [List.flatMap_append, List.append_right_eq_self] at hread
    cases t with
    | nil => rfl
    | cons a t =>
        cases zs with
        | nil => cases hu
        | cons z zs =>
            obtain ⟨b, hb, hne⟩ := hz z List.mem_cons_self
            obtain ⟨s, rfl⟩ := List.head?_eq_some_iff.mp hb
            obtain rfl := (List.cons.inj hu).1
            exact absurd (List.append_eq_nil_iff.mp hread).1 hne
  induction xs generalizing ys with
  | nil =>
      cases ys with
      | nil => rfl
      | cons y ys => cases hmap
  | cons x xs ih =>
      cases ys with
      | nil => cases hmap
      | cons y ys =>
          obtain ⟨hfirst, hmap⟩ := List.cons_eq_cons.mp hmap
          have hx' := (List.forall_mem_cons.mp hx).2
          have hy' := (List.forall_mem_cons.mp hy).2
          rw [List.flatten_cons, List.flatten_cons] at h
          have hxy : x = y := by
            rcases List.append_eq_append_iff.mp h with
              ⟨t, ht, hrest⟩ | ⟨t, ht, hrest⟩
            · rw [hnil ht hfirst.symm ⟨_, hrest.symm⟩ hx', List.append_nil]
                at ht
              exact ht.symm
            · rwa [hnil ht hfirst ⟨_, hrest.symm⟩ hy', List.append_nil] at ht
          rw [hxy, ih (List.append_cancel_left (hxy ▸ h)) hmap hx' hy']

-- == collecting

/-- What `keep` makes of the runs of clusters of a kind; `run` is what the
one that goes on has so far. -/
def collect (kind : α → Bool) (keep : List α → List β) (run : List α) :
    List α → List β
  | [] => keep run
  | a :: as =>
      if kind a then collect kind keep (run ++ [a]) as
      else keep run ++ collect kind keep [] as

/-- What is collected before the end, where the last run is still open. -/
def settled (kind : α → Bool) (keep : List α → List β) (run : List α) :
    List α → List β
  | [] => []
  | a :: as =>
      if kind a then settled kind keep (run ++ [a]) as
      else keep run ++ settled kind keep [] as

/-- The run that is open at the end. -/
def openRun (kind : α → Bool) (run : List α) : List α → List α
  | [] => run
  | a :: as =>
      if kind a then openRun kind (run ++ [a]) as else openRun kind [] as

/-- What is collected behind the run that a list begins with. -/
def later (kind : α → Bool) (keep : List α → List β) (as : List α) :
    List β :=
  match as.dropWhile kind with
  | [] => []
  | _ :: rest => collect kind keep [] rest

variable {kind : α → Bool} {keep : List α → List β}

attribute [grind =] collect settled openRun

theorem collect_eq (run as : List α) :
    collect kind keep run as
      = keep (run ++ as.takeWhile kind) ++ later kind keep as := by
  induction as generalizing run with
  | nil =>
      unfold collect later
      rw [List.takeWhile_nil, List.append_nil]
      exact (List.append_nil _).symm
  | cons a as ih =>
      unfold collect
      by_cases ha : kind a = true
      · have hlater : later kind keep (a :: as) = later kind keep as := by
          unfold later
          rw [List.dropWhile_cons_of_pos ha]
        rw [if_pos ha, ih, List.takeWhile_cons_of_pos ha, hlater,
          List.append_assoc]
        rfl
      · have hlater : later kind keep (a :: as)
            = collect kind keep [] as := by
          unfold later
          rw [List.dropWhile_cons_of_neg ha]
        rw [if_neg ha, List.takeWhile_cons_of_neg ha, hlater,
          List.append_nil]

theorem collect_settled (run as bs : List α) :
    collect kind keep run (as ++ bs) = settled kind keep run as
      ++ collect kind keep (openRun kind run as) bs := by
  induction as generalizing run with
  | nil => rfl
  | cons a as ih =>
      rw [List.cons_append, collect, settled, openRun]
      by_cases ha : kind a = true
      · rw [if_pos ha, if_pos ha, if_pos ha]
        exact ih _
      · rw [if_neg ha, if_neg ha, if_neg ha, ih, List.append_assoc]

/-- What two parts have in the middle is one run. -/
theorem collect_append (as bs : List α) :
    collect kind keep [] (as ++ bs) = settled kind keep [] as
      ++ keep (openRun kind [] as ++ bs.takeWhile kind)
      ++ later kind keep bs := by
  rw [collect_settled, collect_eq, List.append_assoc]

end Clusters
