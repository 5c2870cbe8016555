/-
When a snippet's tabstops do not lead back to themselves, and what
depends on it.

Places in the table of a snippet and numbers in its text correspond, so
the parent links of the table have a cycle exactly when the definitions
in the text do, and the defaults likewise (`acyclic_parents`,
`acyclic_defaults`). Closing the active tabstops and rendering both walk
along these links; what such a walk has behind it is a `Trail`, which is
shorter than the table.
-/
import Zmax.Core.Proofs.Tabstops

namespace Zmax.Snippets

open Walk

variable {compiles : Regex → Bool} {occs : List Occurrence}
  {table : List Tabstop} {s : Snippet}

-- == naming

variable {i : Nat} {t' t : Tabstop} {y n : TabstopIdx} {o : Occurrence}

theorem Places.get (h : Places table s) (ht' : s.tabstops[i]? = some t') :
    ∃ t, table[i]? = some t ∧ Renumbered table t t' := by
  obtain ⟨hi, rfl⟩ := List.getElem?_eq_some_iff.mp ht'
  have hi' : i < table.length := h.tabstops.length_eq ▸ hi
  exact ⟨_, List.getElem?_eq_getElem hi', h.tabstops.get hi' hi⟩

theorem Places.get' (h : Places table s) (ht : table[i]? = some t) :
    ∃ t', s.tabstops[i]? = some t' ∧ Renumbered table t t' := by
  obtain ⟨hi, rfl⟩ := List.getElem?_eq_some_iff.mp ht
  have hi' : i < s.tabstops.length := h.tabstops.length_eq ▸ hi
  exact ⟨_, List.getElem?_eq_getElem hi', h.tabstops.get hi hi'⟩

/-- A tabstop of a table has one place in it. -/
theorem place_of_mem (ht : t ∈ table) :
    ∃ i, table[i]? = some t ∧ Place table i t.idx := by
  obtain ⟨i, hi⟩ := List.getElem?_of_mem ht
  exact ⟨i, hi, t, hi, rfl⟩

/-- At the place of its number a tabstop is the one found there. -/
theorem get_place (h : Table table) (hi : Place table i t.idx)
    (ht : t ∈ table) : table[i]? = some t := by
  obtain ⟨j, hj, hplace⟩ := place_of_mem ht
  rw [hi.injective h hplace]
  exact hj

theorem Renumbered.parent_place (hren : Renumbered table t t')
    {j : TabstopIdx} (hj : t'.parent = some j) :
    ∃ y, t.parent = some y ∧ Place table j y := by
  have hrel := hren.parent
  rw [hj] at hrel
  generalize t.parent = parent at hrel
  cases hrel with
  | some hplace => exact ⟨_, rfl, hplace⟩

theorem Renumbered.place_parent (hren : Renumbered table t t')
    (hy : t.parent = some y) : ∃ j, t'.parent = some j ∧ Place table j y := by
  have hrel := hren.parent
  rw [hy] at hrel
  generalize t'.parent = parent at hrel
  cases hrel with
  | some hplace => exact ⟨_, rfl, hplace⟩

theorem naming_parents (htab : Tabulates occs table) (h : Places table s) :
    Naming (Place table) s.ParentOf (DefinedIn occs) where
  unique _ _ _ := Place.unique
  injective _ _ _ := Place.injective htab.sorted
  step := by
    intro i j
    constructor
    · rintro ⟨t', ht', hp⟩
      obtain ⟨t, ht, hren⟩ := h.get ht'
      obtain ⟨y, hy, hplace⟩ := hren.parent_place hp
      exact ⟨t.idx, y, ⟨t, ht, rfl⟩, hplace, (htab.outward _ _).mp
        ⟨t, List.mem_of_getElem? ht, rfl, hy⟩⟩
    · rintro ⟨x, y, hi, hj, hxy⟩
      obtain ⟨t, ht, rfl, hy⟩ := (htab.outward x y).mpr hxy
      obtain ⟨t', ht', hren⟩ := h.get' (get_place htab.sorted hi ht)
      obtain ⟨j', hj', hplace⟩ := hren.place_parent hy
      rw [hplace.injective htab.sorted hj] at hj'
      exact ⟨t', ht', hj'⟩
  named := by
    intro x y hxy
    obtain ⟨t, ht, rfl, hy⟩ := (htab.outward x y).mpr hxy
    obtain ⟨i, hi, hplace⟩ := place_of_mem ht
    obtain ⟨t', -, hren⟩ := h.get' hi
    obtain ⟨j, -, hplace'⟩ := hren.place_parent hy
    exact ⟨i, j, hplace, hplace'⟩

theorem naming_defaults (htab : Tabulates occs table) (h : Places table s) :
    Naming (Place table) s.DefaultNames (DefinedWith occs) where
  unique _ _ _ := Place.unique
  injective _ _ _ := Place.injective htab.sorted
  step := by
    intro i j
    constructor
    · rintro ⟨t', ht', hm⟩
      obtain ⟨t, ht, hren⟩ := h.get ht'
      obtain ⟨y, hy, hplace⟩ := exists_of_forall₂ hren.mentions j hm
      exact ⟨t.idx, y, ⟨t, ht, rfl⟩, hplace, (htab.inward _ _).mp
        ⟨t, List.mem_of_getElem? ht, rfl, hy⟩⟩
    · rintro ⟨x, y, hi, hj, hxy⟩
      obtain ⟨t, ht, rfl, hy⟩ := (htab.inward x y).mpr hxy
      obtain ⟨t', ht', hren⟩ := h.get' (get_place htab.sorted hi ht)
      obtain ⟨j', hj', hplace⟩ := exists_of_forall₂ hren.mentions.flip y hy
      have hplace : Place table j' y := hplace
      rw [hplace.injective htab.sorted hj] at hj'
      exact ⟨t', ht', hj'⟩
  named := by
    intro x y hxy
    obtain ⟨t, ht, rfl, hy⟩ := (htab.inward x y).mpr hxy
    obtain ⟨i, hi, hplace⟩ := place_of_mem ht
    obtain ⟨t', -, hren⟩ := h.get' hi
    obtain ⟨j, -, hplace'⟩ := exists_of_forall₂ hren.mentions.flip y hy
    exact ⟨i, j, hplace, hplace'⟩

/-- All links stay inside the table. -/
theorem Places.lt (htab : Tabulates occs table) (h : Places table s)
    {j : Nat} (hij : s.ParentOf i j ∨ s.DefaultNames i j) :
    i < s.tabstops.length ∧ j < s.tabstops.length := by
  rw [← h.tabstops.length_eq]
  rcases hij with hij | hij
  · obtain ⟨_, _, hi, hj, -⟩ := ((naming_parents htab h).step i j).mp hij
    exact ⟨hi.lt, hj.lt⟩
  · obtain ⟨_, _, hi, hj, -⟩ := ((naming_defaults htab h).step i j).mp hij
    exact ⟨hi.lt, hj.lt⟩

theorem acyclic_parents (htab : Tabulates occs table)
    (h : Places table s) :
    Acyclic s.ParentOf ↔ Acyclic (DefinedIn occs) :=
  acyclic_iff_of_naming (naming_parents htab h)

theorem acyclic_defaults (htab : Tabulates occs table)
    (h : Places table s) :
    Acyclic s.DefaultNames ↔ Acyclic (DefinedWith occs) :=
  acyclic_iff_of_naming (naming_defaults htab h)

-- == termination

/-- The computation comes to an end, be it by a panic. -/
def Ends {α : Type} (x : Result α) : Prop := x ≠ .error .diverges

theorem Ends.ok {α : Type} (a : α) : Ends (.ok a) := nofun

theorem Ends.bind {α β : Type} {x : Result α} {f : α → Result β}
    (hx : Ends x) (hf : ∀ a, Ends (f a)) : Ends (x >>= f) := by
  cases x with
  | ok a => exact hf a
  | error e =>
      intro h
      injection h with h
      exact hx (h ▸ rfl)

/-- The tabstops of a snippet being filled in have these parents. -/
abbrev LinkedAs (s : Snippet) (tabstops : List Render.Tabstop) : Prop :=
  tabstops.map Render.Tabstop.parent = s.tabstops.map Tabstop.parent

/-- Walking up from a tabstop ends. -/
theorem activateParents_ends {n : Nat} {tabstops : List Render.Tabstop}
    (hlinked : LinkedAs s tabstops) (hacyclic : Acyclic s.ParentOf)
    (hlt : ∀ i j, s.ParentOf i j → j < n) :
    ∀ (fuel : Nat) (parent : Option TabstopIdx) (active behind : List Nat),
      (∀ p ∈ parent, p < n ∧ Trail s.ParentOf n behind p) →
      n ≤ fuel + behind.length →
      Ends (activateParents tabstops fuel parent active) := by
  intro fuel
  induction fuel with
  | zero =>
      intro parent active behind htrail hfuel
      cases parent with
      | none => exact Ends.ok _
      | some p =>
          obtain ⟨hp, htrail⟩ := htrail p rfl
          have := htrail.length_lt hacyclic hp
          omega
  | succ fuel ih =>
      intro parent active behind htrail hfuel
      cases parent with
      | none => exact Ends.ok _
      | some p =>
          obtain ⟨hp, htrail⟩ := htrail p rfl
          unfold activateParents index
          cases htp : tabstops[p]? with
          | none => exact nofun
          | some t =>
              refine ih t.parent (p :: active) (p :: behind) ?_ ?_
              · intro q hq
                have hlink : s.ParentOf p q := by
                  have hmap : (tabstops.map Render.Tabstop.parent)[p]?
                      = some (some q) := by
                    rw [List.getElem?_map, htp, Option.map_some, hq]
                  rw [hlinked, List.getElem?_map,
                    Option.map_eq_some_iff] at hmap
                  exact hmap
                exact ⟨hlt p q hlink, htrail.step hacyclic hp hlink⟩
              · rw [List.length_cons]
                omega

variable {ρ : Type} {env : Environment} {ctx : SnippetRenderCtx ρ}
  {indent : Rope}

mutual

theorem renderElement_ends
    {tabstop : TabstopIdx → SnippetRender ρ → Result (SnippetRender ρ)} :
    ∀ (element : SnippetElement),
      (∀ idx ∈ element.mentions, ∀ r, Ends (tabstop idx r)) →
      ∀ r, Ends (SnippetRender.renderElement env ctx indent tabstop element r)
  | .tabstop idx, h, r => h idx (List.mem_singleton_self _) r
  | .text text, _, r => Ends.ok _
  | .variable name none transform, _, r => by
      unfold SnippetRender.renderElement
      split
      · exact Ends.ok _
      · exact Ends.ok _
  | .variable name (some default) transform, h, r => by
      unfold SnippetRender.renderElement
      split
      · exact Ends.ok _
      · exact renderElements_ends default h _

/-- Rendering elements ends if it does for every tabstop they name. -/
theorem renderElements_ends
    {tabstop : TabstopIdx → SnippetRender ρ → Result (SnippetRender ρ)} :
    ∀ (elements : List SnippetElement),
      (∀ idx ∈ mentions elements, ∀ r, Ends (tabstop idx r)) →
      ∀ r, Ends (SnippetRender.renderElements env ctx indent tabstop
        elements r)
  | [], _, r => Ends.ok r
  | element :: rest, h, r =>
      (renderElement_ends element
        (fun idx hidx => h idx (List.mem_append_left _ hidx)) r).bind
        (renderElements_ends rest
          fun idx hidx => h idx (List.mem_append_right _ hidx))

end

theorem modify_ends (r : RenderedSnippet) (idx : TabstopIdx)
    (f : Render.Tabstop → Render.Tabstop) : Ends (r.modify idx f) := by
  unfold RenderedSnippet.modify
  split
  · exact Ends.ok _
  · exact nofun

theorem pushRange_ends (idx : TabstopIdx) (start : Nat)
    (r : SnippetRender ρ) : Ends (r.pushRange idx start) :=
  (modify_ends _ _ _).bind fun _ => Ends.ok _

/-- Rendering a tabstop ends. -/
theorem renderTabstop_ends {n : Nat} (hacyclic : Acyclic s.DefaultNames)
    (hlt : ∀ i j, s.DefaultNames i j → j < n) :
    ∀ (fuel : Nat) (idx : TabstopIdx) (behind : List Nat),
      idx < n → Trail s.DefaultNames n behind idx →
      n ≤ fuel + behind.length →
      ∀ r, Ends (SnippetRender.renderTabstop env ctx s indent fuel idx r) := by
  intro fuel
  induction fuel with
  | zero =>
      intro idx behind hidx htrail hfuel r
      have := htrail.length_lt hacyclic hidx
      omega
  | succ fuel ih =>
      intro idx behind hidx htrail hfuel r
      unfold SnippetRender.renderTabstop index
      cases ht : s.tabstops[idx]? with
      | none => exact nofun
      | some t =>
          dsimp only
          rw [ok_bind]
          split
          · next element default hk =>
              refine Ends.bind (renderElements_ends _ (fun j hj r => ?_) r)
                fun r => (modify_ends _ _ _).bind
                  fun dst => pushRange_ends idx _ _
              have hlink : s.DefaultNames idx j :=
                ⟨t, ht, by rw [hk]; exact hj⟩
              refine ih j (idx :: behind) (hlt idx j hlink)
                (htrail.step hacyclic hidx hlink) ?_ r
              rw [List.length_cons]
              omega
          · exact pushRange_ends idx _ r

-- == the simple texts

/-- In a list of numbers the first one stands before the other. -/
abbrev Before (numbers : List TabstopIdx) (x y : TabstopIdx) : Prop :=
  numbers.idxOf x < numbers.idxOf y

theorem Before.append_right {l l' : List TabstopIdx} {x : TabstopIdx}
    (h : Before l x y) (hy : y ∈ l) : Before (l ++ l') x y := by
  have hx : x ∈ l :=
    List.idxOf_lt_length_iff.mp (h.trans (List.idxOf_lt_length_of_mem hy))
  unfold Before
  rw [List.idxOf_append_of_mem hx, List.idxOf_append_of_mem hy]
  exact h

theorem Before.append_left {l l' : List TabstopIdx} {x : TabstopIdx}
    (h : Before l' x y) (hy : y ∉ l) : Before (l ++ l') x y := by
  unfold Before
  rw [List.idxOf_append_of_notMem hy]
  by_cases hx : x ∈ l
  · rw [List.idxOf_append_of_mem hx]
    have := List.idxOf_lt_length_of_mem hx
    omega
  · rw [List.idxOf_append_of_notMem hx]
    omega

/-- The first occurrence of a number. -/
abbrev First (occs : List Occurrence) (n : TabstopIdx) (o : Occurrence) :
    Prop := occs.find? (·.idx == n) = some o

theorem First.mem (h : First occs n o) : n ∈ occs.map Occurrence.idx := by
  have hn := List.find?_some (p := fun o : Occurrence => o.idx == n) h
  rw [← beq_iff_eq.mp hn]
  exact List.mem_map_of_mem (List.mem_of_find?_eq_some h)

theorem first_append {occs' : List Occurrence}
    (h : First (occs ++ occs') n o) :
    First occs n o ∨ n ∉ occs.map Occurrence.idx ∧ First occs' n o := by
  unfold First at h
  rw [List.find?_append, Option.or_eq_some_iff] at h
  refine h.imp id fun ⟨hnone, h⟩ => ⟨fun hn => ?_, h⟩
  obtain ⟨u, hu, hidx⟩ := List.mem_map.mp hn
  have := List.find?_eq_none.mp hnone u hu
  exact this (beq_iff_eq.mpr hidx)

/-- What the orders of beginning and ending say about a text directly
inside `around`. -/
structure Orderly (around : Option TabstopIdx) (names opened : List TabstopIdx)
    (occs : List Occurrence) : Prop where
  sound : ∀ o ∈ occs, o.void = false
  begun : ∀ n, n ∈ opened ↔ n ∈ occs.map Occurrence.idx
  names : ∀ n ∈ names, n ∈ occs.map Occurrence.idx
  /-- What is around the first occurrence of a number begins before it. -/
  outward : ∀ n o, First occs n o → o.around = around
    ∨ ∃ p, o.around = some p ∧ Before opened p n
  /-- What is inside it ends before it. -/
  inward : ∀ n o, First occs n o → ∀ m ∈ o.shows,
    Before (occs.map Occurrence.idx) m n

variable {around : Option TabstopIdx} {names names' opened opened' :
  List TabstopIdx} {occs' : List Occurrence}

theorem Orderly.nil : Orderly around [] [] [] :=
  ⟨nofun, fun _ => Iff.rfl, nofun, nofun, nofun⟩

theorem first_singleton {o' : Occurrence} (h : First [o] n o') :
    o' = o ∧ o.idx = n := by
  have hmem := List.mem_singleton.mp (List.mem_of_find?_eq_some h)
  subst hmem
  exact ⟨rfl, beq_iff_eq.mp
    (List.find?_some (p := fun o : Occurrence => o.idx == n) h)⟩

theorem Orderly.single (n : TabstopIdx) :
    Orderly around [n] [n] [⟨n, around, false, []⟩] := by
  refine ⟨?_, fun _ => Iff.rfl, fun _ h => h, ?_, ?_⟩
  · intro o ho
    rw [List.mem_singleton.mp ho]
  · intro m o ho
    rw [(first_singleton ho).1]
    exact .inl rfl
  · intro m o ho
    rw [(first_singleton ho).1]
    exact nofun

theorem Orderly.append (h : Orderly around names opened occs)
    (h' : Orderly around names' opened' occs') :
    Orderly around (names ++ names') (opened ++ opened')
      (occs ++ occs') := by
  refine ⟨?_, ?_, ?_, ?_, ?_⟩
  · intro o ho
    exact (List.mem_append.mp ho).elim (h.sound o) (h'.sound o)
  · intro n
    rw [List.map_append, List.mem_append, List.mem_append, h.begun,
      h'.begun]
  · intro n hn
    rw [List.map_append, List.mem_append]
    exact (List.mem_append.mp hn).imp (h.names n) (h'.names n)
  · intro n o ho
    rcases first_append ho with ho | ⟨hn, ho⟩
    · refine (h.outward n o ho).imp id fun ⟨p, hp, hlt⟩ => ⟨p, hp, ?_⟩
      exact hlt.append_right ((h.begun n).mpr ho.mem)
    · refine (h'.outward n o ho).imp id fun ⟨p, hp, hlt⟩ => ⟨p, hp, ?_⟩
      exact hlt.append_left fun hmem => hn ((h.begun n).mp hmem)
  · intro n o ho m hm
    rw [List.map_append]
    rcases first_append ho with ho | ⟨hn, ho⟩
    · exact (h.inward n o ho m hm).append_right ho.mem
    · exact (h'.inward n o ho m hm).append_left hn

/-- A placeholder around a text that does not contain its number. -/
theorem Orderly.placeholder (h : Orderly (some n) names opened occs)
    (hn : n ∉ opened) :
    Orderly around [n] (n :: opened)
      (occs ++ [⟨n, around, false, names⟩]) := by
  have hn' : n ∉ occs.map Occurrence.idx := fun hmem =>
    hn ((h.begun n).mpr hmem)
  refine ⟨?_, ?_, ?_, ?_, ?_⟩
  · intro o ho
    rcases List.mem_append.mp ho with ho | ho
    · exact h.sound o ho
    · rw [List.mem_singleton.mp ho]
  · intro m
    rw [List.map_append, List.mem_append, List.mem_cons, h.begun, or_comm]
    exact or_congr_right List.mem_singleton.symm
  · intro m hm
    rw [List.map_append, List.mem_append]
    exact .inr hm
  · intro m o ho
    rcases first_append ho with ho | ⟨-, ho⟩
    · have hm : m ∈ opened := (h.begun m).mpr ho.mem
      have hne : n ≠ m := fun heq => hn (heq ▸ hm)
      -- the placeholder itself begins first of all
      have hfirst : (n :: opened).idxOf m = opened.idxOf m + 1 :=
        List.idxOf_cons_ne _ hne
      refine .inr ?_
      rcases h.outward m o ho with ha | ⟨p, hp, hlt⟩
      · refine ⟨n, ha, ?_⟩
        unfold Before
        rw [hfirst, List.idxOf_cons_self]
        exact Nat.succ_pos _
      · refine ⟨p, hp, ?_⟩
        unfold Before at hlt ⊢
        rw [hfirst, List.idxOf_cons]
        cases n == p with
        | true => exact Nat.succ_pos _
        | false => exact Nat.succ_lt_succ hlt
    · rw [(first_singleton ho).1]
      exact .inl rfl
  · intro m o ho k hk
    rw [List.map_append]
    rcases first_append ho with ho | ⟨hm, ho⟩
    · exact (h.inward m o ho k hk).append_right ho.mem
    · obtain ⟨rfl, rfl⟩ := first_singleton ho
      have hmem := h.names k hk
      unfold Before
      rw [List.idxOf_append_of_mem hmem, List.idxOf_append_of_notMem hm]
      exact Nat.lt_add_right _ (List.idxOf_lt_length_of_mem hmem)

mutual

theorem orderly_element (around : Option TabstopIdx) :
    ∀ element : Parser.SnippetElement, PlainElement compiles element →
      Orderly around (numbersOf element) (openingsOf element)
        (occurrencesOf compiles around element)
  | .tabstop tabstop transform, h => by
      unfold occurrencesOf numbersOf openingsOf
      unfold PlainElement at h
      rw [h]
      exact Orderly.single _
  | .choice tabstop _, _ => Orderly.single _
  | .text _, _ => Orderly.nil
  | .variable _ none _, _ => Orderly.nil
  | .variable _ (some default) _, h => orderly_text around default h
  | .placeholder tabstop value, h => by
      unfold PlainElement at h
      unfold occurrencesOf numbersOf openingsOf
      split
      · exact Orderly.single _
      · next hlast =>
          obtain ⟨hn, hplain⟩ := h.resolve_left hlast
          exact (orderly_text _ value hplain).placeholder hn

theorem orderly_text (around : Option TabstopIdx) :
    ∀ elements : List Parser.SnippetElement, Plain compiles elements →
      Orderly around (numbers elements) (openings elements)
        (occurrences compiles around elements)
  | [], _ => Orderly.nil
  | element :: rest, h =>
      (orderly_element around element h.1).append
        (orderly_text around rest h.2)

end

/-- Where nothing is void, the definition is the first occurrence. -/
theorem definition_eq_first (hsound : ∀ o ∈ occs, o.void = false)
    (n : TabstopIdx) : definition occs n = occs.find? (·.idx == n) := by
  unfold definition chosen
  rw [← List.head?_filter (p := fun o : Occurrence => o.idx == n)]
  cases hl : occs.filter (·.idx == n) with
  | nil => rfl
  | cons o l =>
      have ho : o ∈ occs.filter (·.idx == n) := hl ▸ List.mem_cons_self
      have hvoid := hsound o (List.mem_filter.mp ho).1
      rw [List.find?_cons, hvoid]
      rfl

/-- The tabstops of a simple text never lead back to themselves: what is
around a definition begins before it, what is inside it ends before it. -/
theorem untangled_of_plain {elements : List Parser.SnippetElement}
    (h : Plain compiles elements) :
    Untangled (occurrences compiles none elements) := by
  have horderly := orderly_text none elements h
  constructor
  · refine acyclic_of_lt (openings elements).idxOf ?_
    rintro n p ⟨o, ho, hp⟩
    rw [definition_eq_first horderly.sound] at ho
    rcases horderly.outward n o ho with hnone | ⟨q, hq, hlt⟩
    · rw [hnone] at hp
      cases hp
    · rw [hp] at hq
      injection hq with hq
      exact hq ▸ hlt
  · refine acyclic_of_lt
      ((occurrences compiles none elements).map Occurrence.idx).idxOf ?_
    rintro n m ⟨o, ho, hm⟩
    rw [definition_eq_first horderly.sound] at ho
    exact horderly.inward n o ho m hm

-- == the law

/-- Nothing that follows the links of a snippet's table goes on for
ever. -/
structure Terminates (s : Snippet) : Prop where
  parents : Acyclic s.ParentOf
  defaults : Acyclic s.DefaultNames
  activates : ∀ a : ActiveSnippet, LinkedAs s a.tabstops →
    Ends a.activateTabstop
  renders : ∀ {ρ : Type} (env : Environment) (ctx : SnippetRenderCtx ρ)
    (snippet : RenderedSnippet) (indent : Rope) (atNewline : Bool) (vars : ρ)
    (pos : Nat),
    Ends (s.renderAt env ctx snippet indent atNewline vars pos)

theorem terminates_of_acyclic (htab : Tabulates occs table)
    (h : Places table s) (hparents : Acyclic s.ParentOf)
    (hdefaults : Acyclic s.DefaultNames) : Terminates s := by
  refine ⟨hparents, hdefaults, ?_, ?_⟩
  · intro a hlinked
    have hlen : a.tabstops.length = s.tabstops.length := by
      have := congrArg List.length hlinked
      rwa [List.length_map, List.length_map] at this
    unfold ActiveSnippet.activateTabstop
    refine Ends.bind (fun herr => ?_) fun last => ?_
    · unfold checkedSub at herr
      split at herr <;> cases herr
    split
    · exact Ends.ok _
    unfold index
    cases ht : a.tabstops[a.currentTabstop]? with
    | none => exact nofun
    | some t =>
        dsimp only
        rw [ok_bind, hlen]
        refine Ends.bind ?_ fun active => Ends.ok _
        refine activateParents_ends hlinked hparents
          (fun i j hij => (h.lt htab (.inl hij)).2) _ _ _ [] ?_ le_rfl
        intro p hp
        have hmap : (a.tabstops.map Render.Tabstop.parent)[a.currentTabstop]?
            = some (some p) := by
          rw [List.getElem?_map, ht, Option.map_some, hp]
        rw [hlinked, List.getElem?_map, Option.map_eq_some_iff] at hmap
        exact ⟨(h.lt htab (.inl hmap)).2, Trail.start _ _ _⟩
  · intro ρ env ctx snippet indent atNewline vars pos
    refine (renderElements_ends s.elements (fun idx hidx r => ?_) _).bind
      fun r => Ends.ok _
    exact renderTabstop_ends hdefaults
      (fun i j hij => (h.lt htab (.inr hij)).2) _ idx []
      (h.elements idx hidx) (Trail.start _ _ _) (Nat.le_succ _) r

/-- Every snippet is elaborated, and nothing that follows its links goes
on for ever if and only if the tabstops of its text do not lead back to
themselves; as they do not where no placeholder contains its own number
and all transforms compile. -/
theorem tabstops_law (compiles : Regex → Bool)
    (elements : List Parser.SnippetElement) :
    (∃ s, Snippet.new compiles elements = .ok s
      ∧ (Terminates s ↔ Untangled (occurrences compiles none elements)))
    ∧ (Plain compiles elements →
      Untangled (occurrences compiles none elements)) := by
  refine ⟨?_, untangled_of_plain⟩
  obtain ⟨s, table, hnew, htab, h⟩ := @new_spec compiles elements
  refine ⟨s, hnew, ?_, ?_⟩
  · intro ht
    exact ⟨(acyclic_parents htab h).mp ht.parents,
      (acyclic_defaults htab h).mp ht.defaults⟩
  · intro hu
    exact terminates_of_acyclic htab h
      ((acyclic_parents htab h).mpr hu.outward)
      ((acyclic_defaults htab h).mpr hu.inward)

/-- The first tabstop of `${1:$1}` is its own parent, and activating it
walks up from it for ever. -/
theorem not_tabstops_law_nested :
    ∃ s, Snippet.new (fun _ => true) [.placeholder 1 [.tabstop 1 none]]
        = .ok s
      ∧ s.ParentOf 0 0
      ∧ ActiveSnippet.activateTabstop
          ⟨[⟨0, 0⟩], [], 0, s.prepareRender.tabstops⟩ = .error .diverges := by
  have hfix : fixupTabstops [⟨0, some 0, .placeholder []⟩,
      ⟨0, none, .placeholder [.tabstop 0]⟩]
        = [⟨0, some 0, .placeholder []⟩] := by
    unfold fixupTabstops
    rw [List.mergeSort_of_pairwise (by simp)]
    rfl
  refine ⟨⟨[.tabstop 0, .tabstop 1],
    [⟨0, some 0, .placeholder []⟩, ⟨lastTabstopIdx, none, .empty⟩]⟩, ?_,
    ⟨_, rfl, rfl⟩, by decide⟩
  show (Snippet.ensureLastTabstop ⟨[.tabstop 0], fixupTabstops
    [⟨0, some 0, .placeholder []⟩,
      ⟨0, none, .placeholder [.tabstop 0]⟩]⟩).renumberTabstops = _
  rw [hfix]
  rfl

end Zmax.Snippets
