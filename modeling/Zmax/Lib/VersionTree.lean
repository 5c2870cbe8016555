/-
Trees of versions kept in a list: every node but the first points to a
parent before it, and carries an edit that leads from the parent's state
to its own and one that leads back. Nodes, edits and states are
arbitrary, and so is the relation that says what an edit does.

# The two directions

`Path` chains edits. `Climb` is the way up from a node to one of its
ancestors. In a coherent tree the edits back along a climb lead from the
node's state to the ancestor's (`Coherent.path_back`), and the edits
forth, taken in reverse order, from the ancestor's to the node's
(`Coherent.path_forth`).

# Changing the tree

A tree stays coherent when a leaf is pushed (`Coherent.push`), and when
a node moves to another state while nothing hangs on the old one
(`Coherent.replace`). When nodes after the first are cut off and their
children are hung on the first, it stays coherent exactly if all of
these started from one state (`Coherent.cut`).
-/
import Mathlib.Data.List.Forall2

namespace VersionTree

variable {ν ε σ : Type*}

-- == paths

/-- The edits lead from one state to another, one after the other. -/
inductive Path (R : ε → σ → σ → Prop) : List ε → σ → σ → Prop
  | nil (s : σ) : Path R [] s s
  | cons {e : ε} {es : List ε} {s t u : σ} :
      R e s t → Path R es t u → Path R (e :: es) s u

variable {s t : σ} {a n i d : Nat} {path : List Nat} {kept rest : List ν}

theorem Path.single {R : ε → σ → σ → Prop} {e : ε} (h : R e s t) :
    Path R [e] s t := .cons h (.nil t)

/-- Paths that meet are one. -/
theorem Path.append {R : ε → σ → σ → Prop} {es fs : List ε} {s t u : σ}
    (h : Path R es s t) (h' : Path R fs t u) : Path R (es ++ fs) s u := by
  induction h with
  | nil s => exact h'
  | cons he _ ih => exact .cons he (ih h')

/-- A path can be left at any point. -/
theorem Path.of_append {R : ε → σ → σ → Prop} {es fs : List ε} {u : σ}
    (h : Path R (es ++ fs) s u) : ∃ t, Path R es s t ∧ Path R fs t u := by
  induction es generalizing s with
  | nil => exact ⟨s, .nil s, h⟩
  | cons e es ih =>
      rcases h with _ | ⟨he, hrest⟩
      obtain ⟨t, hes, hfs⟩ := ih hrest
      exact ⟨t, .cons he hes, hfs⟩

theorem Path.of_single {R : ε → σ → σ → Prop} {e : ε} (h : Path R [e] s t) :
    R e s t := by
  rcases h with _ | ⟨he, hrest⟩
  cases hrest
  exact he

theorem Path.mono {R R' : ε → σ → σ → Prop}
    (himp : ∀ e s t, R e s t → R' e s t) {es : List ε} (h : Path R es s t) :
    Path R' es s t := by
  induction h with
  | nil s => exact .nil s
  | cons he _ ih => exact .cons (himp _ _ _ he) ih

-- == trees

/-- The way up from a node to an ancestor: the nodes left on the way. -/
inductive Climb (parent : ν → Nat) (nodes : List ν) :
    Nat → Nat → List Nat → Prop
  | here (a : Nat) : Climb parent nodes a a []
  | up {n a : Nat} {v : ν} {path : List Nat} :
      0 < n → nodes[n]? = some v → Climb parent nodes (parent v) a path →
      Climb parent nodes n a (n :: path)

/-- Parents come before their children, the first node is its own
parent, and the edits lead from parents to children and back. -/
structure Coherent (parent : ν → Nat) (forth back : ν → ε)
    (R : ε → σ → σ → Prop) (nodes : List ν) (state : Nat → σ) : Prop where
  root : ∀ v, nodes[0]? = some v → parent v = 0
  parent_lt : ∀ i v, nodes[i]? = some v → 0 < i → parent v < i
  edge_forth : ∀ i v, nodes[i]? = some v → 0 < i →
    R (forth v) (state (parent v)) (state i)
  edge_back : ∀ i v, nodes[i]? = some v → 0 < i →
    R (back v) (state i) (state (parent v))

variable {parent : ν → Nat} {forth back : ν → ε} {R : ε → σ → σ → Prop}
  {nodes : List ν} {state : Nat → σ}

/-- Climbs that meet are one. -/
theorem Climb.trans {b : Nat} {p q : List Nat} (h : Climb parent nodes n a p)
    (h' : Climb parent nodes a b q) : Climb parent nodes n b (p ++ q) := by
  induction h with
  | here a => exact h'
  | up hpos hv _ ih => exact .up hpos hv (ih h')

/-- Along a climb the index only falls. -/
theorem Coherent.le_of_climb (hc : Coherent parent forth back R nodes state)
    (h : Climb parent nodes n a path) : a ≤ n := by
  induction h with
  | here a => exact Nat.le_refl a
  | @up n a v path hpos hv _ ih =>
      have := hc.parent_lt n v hv hpos
      omega

/-- Every node of a climb is a node of the tree, and so has a value. -/
theorem Climb.values (h : Climb parent nodes n a path) :
    ∃ vs, List.Forall₂ (fun i v => nodes[i]? = some v) path vs := by
  induction h with
  | here a => exact ⟨[], .nil⟩
  | up _ hv _ ih =>
      obtain ⟨vs, hvs⟩ := ih
      exact ⟨_ :: vs, .cons hv hvs⟩

/-- The edits back along a climb lead to the ancestor's state. -/
theorem Coherent.path_back (hc : Coherent parent forth back R nodes state)
    (h : Climb parent nodes n a path) {vs : List ν}
    (hvs : List.Forall₂ (fun i v => nodes[i]? = some v) path vs) :
    Path R (vs.map back) (state n) (state a) := by
  induction h generalizing vs with
  | here a =>
      rw [List.forall₂_nil_left_iff] at hvs
      subst hvs
      exact .nil _
  | @up n a v path hpos hv _ ih =>
      obtain ⟨w, ws, hw, hws, rfl⟩ := List.forall₂_cons_left_iff.mp hvs
      obtain rfl : v = w := by
        rw [hv] at hw
        injection hw
      exact .cons (hc.edge_back n v hv hpos) (ih hws)

/-- The edits forth along a climb, in reverse, lead back down. -/
theorem Coherent.path_forth (hc : Coherent parent forth back R nodes state)
    (h : Climb parent nodes n a path) {vs : List ν}
    (hvs : List.Forall₂ (fun i v => nodes[i]? = some v) path vs) :
    Path R (vs.reverse.map forth) (state a) (state n) := by
  induction h generalizing vs with
  | here a =>
      rw [List.forall₂_nil_left_iff] at hvs
      subst hvs
      exact .nil _
  | @up n a v path hpos hv _ ih =>
      obtain ⟨w, ws, hw, hws, rfl⟩ := List.forall₂_cons_left_iff.mp hvs
      obtain rfl : v = w := by
        rw [hv] at hw
        injection hw
      rw [List.reverse_cons, List.map_append]
      exact (ih hws).append (.single (hc.edge_forth n v hv hpos))

-- == extending

/-- A leaf on a node of the tree. -/
theorem Coherent.push (hc : Coherent parent forth back R nodes state)
    {state' : Nat → σ} (hstate : ∀ i < nodes.length, state' i = state i)
    {v : ν} (hparent : parent v < nodes.length)
    (hforth : R (forth v) (state (parent v)) (state' nodes.length))
    (hback : R (back v) (state' nodes.length) (state (parent v))) :
    Coherent parent forth back R (nodes ++ [v]) state' := by
  -- a node of the longer list is an old one or the leaf
  have hcases : ∀ i w, (nodes ++ [v])[i]? = some w →
      (i < nodes.length ∧ nodes[i]? = some w)
        ∨ (i = nodes.length ∧ w = v) := by
    intro i w hw
    rcases Nat.lt_or_ge i nodes.length with hlt | hge
    · rw [List.getElem?_append_left hlt] at hw
      exact .inl ⟨hlt, hw⟩
    · rw [List.getElem?_append_right hge, List.getElem?_singleton] at hw
      split at hw
      · injection hw with hw
        exact .inr ⟨by omega, hw.symm⟩
      · cases hw
  have hold : ∀ i w, nodes[i]? = some w → 0 < i →
      i < nodes.length ∧ parent w < nodes.length := by
    intro i w hw hpos
    have hlt := (List.getElem?_eq_some_iff.mp hw).1
    have := hc.parent_lt i w hw hpos
    exact ⟨hlt, by omega⟩
  constructor
  · intro w hw
    rcases hcases 0 w hw with ⟨-, hw⟩ | ⟨h0, rfl⟩
    · exact hc.root w hw
    · omega
  · intro i w hw hpos
    rcases hcases i w hw with ⟨-, hw⟩ | ⟨rfl, rfl⟩
    · exact hc.parent_lt i w hw hpos
    · exact hparent
  · intro i w hw hpos
    rcases hcases i w hw with ⟨-, hw⟩ | ⟨rfl, rfl⟩
    · obtain ⟨hlt, hp⟩ := hold i w hw hpos
      rw [hstate i hlt, hstate _ hp]
      exact hc.edge_forth i w hw hpos
    · rw [hstate _ hparent]
      exact hforth
  · intro i w hw hpos
    rcases hcases i w hw with ⟨-, hw⟩ | ⟨rfl, rfl⟩
    · obtain ⟨hlt, hp⟩ := hold i w hw hpos
      rw [hstate i hlt, hstate _ hp]
      exact hc.edge_back i w hw hpos
    · rw [hstate _ hparent]
      exact hback

/-- Nodes with the same parents and edits. -/
theorem Coherent.congr (hc : Coherent parent forth back R nodes state)
    {nodes' : List ν}
    (h : ∀ (i : Nat) v', nodes'[i]? = some v' → ∃ v, nodes[i]? = some v
      ∧ parent v' = parent v ∧ forth v' = forth v ∧ back v' = back v) :
    Coherent parent forth back R nodes' state := by
  constructor
  · intro v' hv'
    obtain ⟨v, hv, hp, -, -⟩ := h 0 v' hv'
    rw [hp]
    exact hc.root v hv
  · intro i v' hv' hpos
    obtain ⟨v, hv, hp, -, -⟩ := h i v' hv'
    rw [hp]
    exact hc.parent_lt i v hv hpos
  · intro i v' hv' hpos
    obtain ⟨v, hv, hp, hf, -⟩ := h i v' hv'
    rw [hp, hf]
    exact hc.edge_forth i v hv hpos
  · intro i v' hv' hpos
    obtain ⟨v, hv, hp, -, hb⟩ := h i v' hv'
    rw [hp, hb]
    exact hc.edge_back i v hv hpos

/-- A node moves to another state. Nothing may hang on the old one. -/
theorem Coherent.replace (hc : Coherent parent forth back R nodes state)
    {v v' : ν} (hi : 0 < i) (hv : nodes[i]? = some v)
    (hparent : parent v' = parent v) {state' : Nat → σ}
    (hstate : ∀ j, j ≠ i → state' j = state j)
    (hforth : R (forth v') (state (parent v)) (state' i))
    (hback : R (back v') (state' i) (state (parent v)))
    (hleaf : state' i = state i ∨
      ∀ (j : Nat) w, nodes[j]? = some w → 0 < j → parent w ≠ i) :
    Coherent parent forth back R (nodes.set i v') state' := by
  have hcases : ∀ j w, (nodes.set i v')[j]? = some w →
      (j = i ∧ w = v') ∨ (j ≠ i ∧ nodes[j]? = some w) := by
    intro j w hw
    by_cases hj : i = j
    · subst hj
      rw [List.getElem?_set_self (List.getElem?_eq_some_iff.mp hv).1] at hw
      injection hw with hw
      exact .inl ⟨rfl, hw.symm⟩
    · rw [List.getElem?_set_ne hj] at hw
      exact .inr ⟨fun h => hj h.symm, hw⟩
  -- the state an old edge starts from has not moved
  have hfrom : ∀ (j : Nat) w, nodes[j]? = some w → 0 < j →
      state' (parent w) = state (parent w) := by
    intro j w hw hpos
    by_cases hp : parent w = i
    · rcases hleaf with h | h
      · rw [hp, h]
      · exact absurd hp (h j w hw hpos)
    · exact hstate _ hp
  have hup : state' (parent v) = state (parent v) := hfrom i v hv hi
  constructor
  · intro w hw
    rcases hcases 0 w hw with ⟨h0, -⟩ | ⟨-, hw⟩
    · omega
    · exact hc.root w hw
  · intro j w hw hpos
    rcases hcases j w hw with ⟨rfl, rfl⟩ | ⟨-, hw⟩
    · rw [hparent]
      exact hc.parent_lt j v hv hpos
    · exact hc.parent_lt j w hw hpos
  · intro j w hw hpos
    rcases hcases j w hw with ⟨rfl, rfl⟩ | ⟨hj, hw⟩
    · rw [hparent, hup]
      exact hforth
    · rw [hfrom j w hw hpos, hstate j hj]
      exact hc.edge_forth j w hw hpos
  · intro j w hw hpos
    rcases hcases j w hw with ⟨rfl, rfl⟩ | ⟨hj, hw⟩
    · rw [hparent, hup]
      exact hback
    · rw [hfrom j w hw hpos, hstate j hj]
      exact hc.edge_back j w hw hpos

-- == cutting

/-- `kept` is what is left of the nodes after the first when `d` of them
are cut off: the same edits, the indices of the parents moved. -/
def Cut (parent : ν → Nat) (forth back : ν → ε) (d : Nat)
    (rest kept : List ν) : Prop :=
  List.Forall₂ (fun v v' => parent v' = parent v - d ∧ forth v' = forth v
    ∧ back v' = back v) (rest.drop d) kept

/-- Related lists agree on which indices they have. -/
theorem getElem?_of_forall₂ {α β : Type*} {P : α → β → Prop} {xs : List α}
    {ys : List β} (h : List.Forall₂ P xs ys) {k : Nat} {x : α}
    (hx : xs[k]? = some x) : ∃ y, ys[k]? = some y ∧ P x y := by
  obtain ⟨hlt, rfl⟩ := List.getElem?_eq_some_iff.mp hx
  have hlt' : k < ys.length := h.length_eq ▸ hlt
  exact ⟨ys[k], List.getElem?_eq_getElem hlt', h.get hlt hlt'⟩

/-- An index after the first, before and after the cut. -/
private theorem getElem?_cut {d i : Nat} (hi : 0 < i) (v₀ : ν)
    (rest : List ν) : (v₀ :: rest)[i + d]? = (rest.drop d)[i - 1]? := by
  obtain ⟨k, rfl⟩ := Nat.exists_eq_add_of_lt hi
  rw [List.getElem?_drop, show 0 + k + 1 + d = k + d + 1 from by omega,
    List.getElem?_cons_succ]
  congr 1
  omega

/-- Where a node after a cut came from. -/
theorem Cut.source (h : Cut parent forth back d rest kept) (v₀ v₀' : ν)
    (hi : 0 < i) {v' : ν} (hv' : (v₀' :: kept)[i]? = some v') :
    ∃ v, (v₀ :: rest)[i + d]? = some v ∧ parent v' = parent v - d
      ∧ forth v' = forth v ∧ back v' = back v := by
  rw [getElem?_cut hi]
  have hv' : kept[i - 1]? = some v' := by
    have := @getElem?_cut ν 0 i hi v₀' kept
    rwa [Nat.add_zero, List.drop_zero, hv', eq_comm] at this
  obtain ⟨v, hv, hrel⟩ := getElem?_of_forall₂ h.flip hv'
  exact ⟨v, hv, hrel⟩

/-- What became of a node that was not cut off. -/
theorem Cut.target (h : Cut parent forth back d rest kept) (v₀ v₀' : ν)
    (hi : 0 < i) {v : ν} (hv : (v₀ :: rest)[i + d]? = some v) :
    ∃ v', (v₀' :: kept)[i]? = some v' ∧ parent v' = parent v - d
      ∧ forth v' = forth v ∧ back v' = back v := by
  rw [getElem?_cut hi] at hv
  obtain ⟨v', hv', hrel⟩ := getElem?_of_forall₂ h hv
  refine ⟨v', ?_, hrel⟩
  have := @getElem?_cut ν 0 i hi v₀' kept
  rwa [Nat.add_zero, List.drop_zero, hv'] at this

/-- After a cut a tree is coherent, with `state' 0` for the state of the
first node, exactly if every node that lost its parent, or hung on the
first node, started from it. The edits back have to be deterministic. -/
theorem Coherent.cut (hc : Coherent parent forth back R nodes state)
    (hdet : ∀ e s t t', R e s t → R e s t' → t = t') {v₀ v₀' : ν}
    (hnodes : nodes = v₀ :: rest) (hcut : Cut parent forth back d rest kept)
    (hroot : parent v₀' = 0) {state' : Nat → σ}
    (hstate : ∀ i, 0 < i → state' i = state (i + d)) :
    Coherent parent forth back R (v₀' :: kept) state' ↔
      ∀ (i : Nat) v, nodes[i]? = some v → d < i → parent v ≤ d →
        state (parent v) = state' 0 := by
  subst hnodes
  constructor
  · intro hc' i v hv hi hp
    obtain ⟨j, rfl⟩ : ∃ j, i = j + d := ⟨i - d, by omega⟩
    have hj : 0 < j := by omega
    obtain ⟨v', hv', hpar, -, hback⟩ := hcut.target v₀ v₀' hj hv
    -- the edit back leads to both
    have hnew := hc'.edge_back j v' hv' hj
    have hold := hc.edge_back (j + d) v hv (by omega)
    rw [hback, hstate j hj, hpar, Nat.sub_eq_zero_of_le hp] at hnew
    exact hdet _ _ _ _ hold hnew
  · intro h
    -- the state an edge starts from is the one it started from
    have hfrom : ∀ i v, 0 < i → (v₀ :: rest)[i + d]? = some v →
        state' (parent v - d) = state (parent v) := by
      intro i v hi hv
      by_cases hp : parent v ≤ d
      · rw [Nat.sub_eq_zero_of_le hp]
        exact (h (i + d) v hv (by omega) hp).symm
      · rw [hstate _ (by omega), Nat.sub_add_cancel (by omega)]
    constructor
    · intro v hv
      injection hv with hv
      rw [← hv, hroot]
    · intro i v' hv' hi
      obtain ⟨v, hv, hpar, -, -⟩ := hcut.source v₀ v₀' hi hv'
      have := hc.parent_lt (i + d) v hv (by omega)
      omega
    · intro i v' hv' hi
      obtain ⟨v, hv, hpar, hforth, -⟩ := hcut.source v₀ v₀' hi hv'
      rw [hpar, hforth, hfrom i v hi hv, hstate i hi]
      exact hc.edge_forth (i + d) v hv (by omega)
    · intro i v' hv' hi
      obtain ⟨v, hv, hpar, -, hback⟩ := hcut.source v₀ v₀' hi hv'
      rw [hpar, hback, hfrom i v hi hv, hstate i hi]
      exact hc.edge_back (i + d) v hv (by omega)

end VersionTree
