/-
The tabstop table of a snippet.

What `elaborate` pushes to the table are the occurrences of the text in
order (`elaborate_spec`). `fixup_tabstops` keeps the definition of each
number, in the order of the numbers (`fixup_spec`): the sort is stable,
so the occurrences of a number come to the `dedup` in their order. And
renumbering finds everything that is named, so that places in the final
table correspond to numbers of the text one to one, with their parents
and defaults (`new_spec`).
-/
import Zmax.Core.Snippets.Active
import Zmax.Core.Snippets.Occurrences

namespace Zmax.Snippets

open Walk

variable {compiles : Regex → Bool}

/-- A tabstop of the table as an occurrence. -/
def Tabstop.occurrence (t : Tabstop) : Occurrence :=
  ⟨t.idx, t.parent, t.kind.isEmpty, t.kind.mentions⟩

-- == elaborating

theorem occurrence_ofTransform (idx : TabstopIdx) (around : Option TabstopIdx)
    (transform : Parser.Transform) :
    Tabstop.occurrence ⟨idx, around, .ofTransform compiles transform⟩
      = ⟨idx, around, isVoid compiles (some transform), []⟩ := by
  unfold TabstopKind.ofTransform isVoid
  cases h : Transform.new compiles transform with
  | none => simp [h, Tabstop.occurrence, TabstopKind.isEmpty,
      TabstopKind.mentions]
  | some transform => simp [h, Tabstop.occurrence, TabstopKind.isEmpty,
      TabstopKind.mentions]

mutual

theorem elaborateElement_spec (around : Option TabstopIdx) :
    ∀ (element : Parser.SnippetElement) (tabstops : List Tabstop),
      ∃ pushed, (elaborateElement compiles around element tabstops).2
          = tabstops ++ pushed
        ∧ pushed.map Tabstop.occurrence
          = occurrencesOf compiles around element
        ∧ (elaborateElement compiles around element tabstops).1.mentions
          = numbersOf element
  | .tabstop tabstop none, tabstops => ⟨_, rfl, rfl, rfl⟩
  | .tabstop tabstop (some transform), tabstops =>
      ⟨_, rfl, congrArg (· :: []) (occurrence_ofTransform _ _ _), rfl⟩
  | .choice tabstop choices, tabstops => ⟨_, rfl, rfl, rfl⟩
  | .text text, tabstops => ⟨[], (List.append_nil _).symm, rfl, rfl⟩
  | .variable name none transform, tabstops =>
      ⟨[], (List.append_nil _).symm, rfl, rfl⟩
  | .variable name (some default) transform, tabstops =>
      elaborate_spec around default tabstops
  | .placeholder tabstop value, tabstops => by
      unfold elaborateElement occurrencesOf
      dsimp only
      split
      · exact ⟨_, rfl, rfl, rfl⟩
      · obtain ⟨pushed, htable, hoccs, hnames⟩ := elaborate_spec
          (some (TabstopIdx.elaborate tabstop)) value tabstops
        generalize elaborate compiles (some (TabstopIdx.elaborate tabstop))
          value tabstops = inner at htable hnames
        refine ⟨pushed ++ [⟨.elaborate tabstop, around,
          .placeholder inner.1⟩], ?_, ?_, rfl⟩
        · rw [htable, List.append_assoc]
        · rw [List.map_append, hoccs, ← hnames]
          rfl

/-- Elaborating pushes the occurrences of the text, and the elements name
what stands in it. -/
theorem elaborate_spec (around : Option TabstopIdx) :
    ∀ (elements : List Parser.SnippetElement) (tabstops : List Tabstop),
      ∃ pushed, (elaborate compiles around elements tabstops).2
          = tabstops ++ pushed
        ∧ pushed.map Tabstop.occurrence = occurrences compiles around elements
        ∧ mentions (elaborate compiles around elements tabstops).1
          = numbers elements
  | [], tabstops => ⟨[], (List.append_nil _).symm, rfl, rfl⟩
  | element :: rest, tabstops => by
      obtain ⟨pushed, htable, hoccs, hnames⟩ :=
        elaborateElement_spec around element tabstops
      obtain ⟨pushed', htable', hoccs', hnames'⟩ := elaborate_spec around rest
        (elaborateElement compiles around element tabstops).2
      refine ⟨pushed ++ pushed', ?_, ?_, ?_⟩
      · rw [htable, List.append_assoc] at htable'
        rw [← htable] at htable'
        exact htable'
      · rw [List.map_append, hoccs, hoccs']
        rfl
      · exact congrArg₂ (· ++ ·) hnames hnames'

end

-- == fixup

/-- A stable sort leaves elements of equal rank in their order. -/
theorem filter_mergeSort {α : Type} {le : α → α → Bool} {p : α → Bool}
    (htrans : ∀ a b c, le a b → le b c → le a c)
    (htotal : ∀ a b, le a b || le b a)
    (hp : ∀ a b, p a → p b → le a b) (l : List α) :
    (l.mergeSort le).filter p = l.filter p := by
  have hsorted : (l.filter p).Pairwise fun a b => le a b = true := by
    refine List.pairwise_iff_forall_sublist.mpr fun {a b} hab => ?_
    have ha := hab.subset List.mem_cons_self
    have hb := hab.subset (List.mem_cons_of_mem _ List.mem_cons_self)
    exact hp a b (List.of_mem_filter ha) (List.of_mem_filter hb)
  have hsub : List.Sublist (l.filter p) ((l.mergeSort le).filter p) := by
    have := (List.sublist_mergeSort htrans htotal hsorted
      List.filter_sublist).filter p
    simpa only [List.filter_filter, Bool.and_self] using this
  have hlen := ((List.mergeSort_perm l le).filter p).length_eq
  exact (hsub.eq_of_length hlen.symm).symm

/-- The tabstop kept of those with one number. -/
def keptOf (tabstops : List Tabstop) : Option Tabstop :=
  (tabstops.find? fun t => !t.kind.isEmpty).or tabstops.getLast?

theorem chosen_map (tabstops : List Tabstop) :
    chosen (tabstops.map Tabstop.occurrence)
      = (keptOf tabstops).map Tabstop.occurrence := by
  unfold chosen keptOf
  rw [List.find?_map, List.getLast?_map, Option.map_or]
  rfl

/-- In the order of their numbers, perhaps with repetitions. -/
abbrev SortedTable (tabstops : List Tabstop) : Prop :=
  tabstops.Pairwise fun a b => a.idx ≤ b.idx

/-- In the order of their numbers, each number once. -/
abbrev Table (tabstops : List Tabstop) : Prop :=
  tabstops.Pairwise fun a b => a.idx < b.idx

variable {kept : Tabstop} {rest : List Tabstop} {i idx : TabstopIdx}

theorem mem_dedup {t : Tabstop} (ht : t ∈ dedup kept rest) :
    t ∈ kept :: rest := by
  induction rest generalizing kept with
  | nil => exact ht
  | cons tabstop rest ih =>
      unfold dedup at ht
      split at ht
      · rcases List.mem_cons.mp ht with rfl | ht
        · exact List.mem_cons_self
        · exact List.mem_cons_of_mem _ (ih ht)
      split at ht
      · exact List.mem_cons_of_mem _ (ih ht)
      · rcases List.mem_cons.mp (ih ht) with rfl | ht
        · exact List.mem_cons_self
        · exact List.mem_cons_of_mem _ (List.mem_cons_of_mem _ ht)

theorem dedup_table (h : SortedTable (kept :: rest)) :
    Table (dedup kept rest) := by
  induction rest generalizing kept with
  | nil => exact List.pairwise_singleton _ _
  | cons tabstop rest ih =>
      obtain ⟨hkept, hrest⟩ := List.pairwise_cons.mp h
      obtain ⟨htabstop, htail⟩ := List.pairwise_cons.mp hrest
      have hle := hkept tabstop List.mem_cons_self
      unfold dedup
      split
      · next hne =>
          have hlt := Nat.lt_of_le_of_ne hle hne.symm
          refine List.pairwise_cons.mpr ⟨fun t ht => ?_, ih hrest⟩
          rcases List.mem_cons.mp (mem_dedup ht) with rfl | ht
          · exact hlt
          · exact hlt.trans_le (htabstop t ht)
      split
      · exact ih hrest
      · refine ih (List.pairwise_cons.mpr ⟨fun t ht => ?_, htail⟩)
        exact hkept t (List.mem_cons_of_mem _ ht)

/-- For each number, the first that is not empty is kept, else the
last. -/
theorem find_dedup (h : SortedTable (kept :: rest)) (idx : TabstopIdx) :
    (dedup kept rest).find? (·.idx == idx)
      = keptOf ((kept :: rest).filter (·.idx == idx)) := by
  induction rest generalizing kept with
  | nil =>
      unfold dedup keptOf
      by_cases hidx : kept.idx = idx
      · cases he : kept.kind.isEmpty <;> simp [hidx, he]
      · simp [hidx]
  | cons tabstop rest ih =>
      obtain ⟨hkept, hrest⟩ := List.pairwise_cons.mp h
      obtain ⟨htabstop, htail⟩ := List.pairwise_cons.mp hrest
      have hle := hkept tabstop List.mem_cons_self
      have hskip : SortedTable (kept :: rest) :=
        List.pairwise_cons.mpr
          ⟨fun t ht => hkept t (List.mem_cons_of_mem _ ht), htail⟩
      unfold dedup
      split
      · next hne =>
          rw [List.find?_cons]
          by_cases hidx : kept.idx = idx
          · -- what follows has larger numbers
            have hnone : (tabstop :: rest).filter (·.idx == idx) = [] := by
              refine List.filter_eq_nil_iff.mpr fun t ht hidx' => ?_
              have hlt : kept.idx < t.idx := by
                refine (Nat.lt_of_le_of_ne hle hne.symm).trans_le ?_
                rcases List.mem_cons.mp ht with rfl | ht
                · exact le_rfl
                · exact htabstop t ht
              exact hlt.ne (hidx.trans (beq_iff_eq.mp hidx').symm)
            rw [List.filter_cons_of_pos (by simpa using hidx), hnone]
            unfold keptOf
            cases he : kept.kind.isEmpty <;> simp [hidx, he]
          · rw [List.filter_cons_of_neg (by simpa using hidx), ih hrest,
              beq_false_of_ne hidx]
      · next heq =>
          have heq : tabstop.idx = kept.idx := not_not.mp heq
          by_cases hidx : kept.idx = idx
          · have hidx' : tabstop.idx = idx := heq.trans hidx
            rw [List.filter_cons_of_pos (by simpa using hidx),
              List.filter_cons_of_pos (by simpa using hidx')]
            split
            · next he =>
                rw [ih hrest, List.filter_cons_of_pos (by simpa using hidx')]
                unfold keptOf
                simp only [List.find?_cons (a := kept), he, Bool.not_true,
                  List.getLast?_cons_cons]
            · next he =>
                rw [ih hskip, List.filter_cons_of_pos (by simpa using hidx)]
                unfold keptOf
                simp [he]
          · have hidx' : tabstop.idx ≠ idx := fun h => hidx (heq.symm.trans h)
            rw [List.filter_cons_of_neg (by simpa using hidx),
              List.filter_cons_of_neg (by simpa using hidx')]
            split
            · rw [ih hrest, List.filter_cons_of_neg (by simpa using hidx')]
            · rw [ih hskip, List.filter_cons_of_neg (by simpa using hidx)]

/-- The table after `fixup_tabstops` has the definition of every number,
in the order of the numbers. -/
theorem fixup_spec (pushed : List Tabstop) :
    Table (fixupTabstops pushed)
    ∧ (∀ t ∈ fixupTabstops pushed, t ∈ pushed)
    ∧ ∀ idx, ((fixupTabstops pushed).find? (·.idx == idx)).map
        Tabstop.occurrence
      = definition (pushed.map Tabstop.occurrence) idx := by
  have htrans : ∀ a b c : Tabstop, decide (a.idx ≤ b.idx) →
      decide (b.idx ≤ c.idx) → decide (a.idx ≤ c.idx) := by
    simp only [decide_eq_true_eq]
    exact fun a b c => Nat.le_trans
  have htotal : ∀ a b : Tabstop,
      decide (a.idx ≤ b.idx) || decide (b.idx ≤ a.idx) := by
    simp only [Bool.or_eq_true, decide_eq_true_eq]
    exact fun a b => Nat.le_total _ _
  have hdef : ∀ idx, definition (pushed.map Tabstop.occurrence) idx
      = (keptOf (pushed.filter (·.idx == idx))).map Tabstop.occurrence := by
    intro idx
    unfold definition
    rw [List.filter_map, chosen_map]
    rfl
  have hfilter : ∀ idx : TabstopIdx, (pushed.mergeSort fun a b =>
      decide (a.idx ≤ b.idx)).filter (·.idx == idx)
        = pushed.filter (·.idx == idx) := by
    intro idx
    refine filter_mergeSort htrans htotal (fun a b ha hb => ?_) pushed
    rw [beq_iff_eq] at ha hb
    simp [ha, hb]
  have hsorted : SortedTable (pushed.mergeSort fun a b =>
      decide (a.idx ≤ b.idx)) :=
    (List.pairwise_mergeSort htrans htotal pushed).imp of_decide_eq_true
  have hmem : ∀ t ∈ pushed.mergeSort fun a b => decide (a.idx ≤ b.idx),
      t ∈ pushed := fun t => List.mem_mergeSort.mp
  simp only [hdef, ← hfilter]
  unfold fixupTabstops
  generalize pushed.mergeSort (fun a b => decide (a.idx ≤ b.idx)) = sorted
    at hsorted hmem
  cases sorted with
  | nil => exact ⟨.nil, fun t ht => absurd ht List.not_mem_nil, fun _ => rfl⟩
  | cons kept rest =>
      refine ⟨dedup_table hsorted, fun t ht => hmem t (mem_dedup ht), ?_⟩
      intro idx
      exact congrArg (Option.map Tabstop.occurrence) (find_dedup hsorted idx)

-- == the text

theorem elaborate_le (n : Nat) : TabstopIdx.elaborate n ≤ lastTabstopIdx := by
  unfold TabstopIdx.elaborate lastTabstopIdx
  split
  · exact le_rfl
  · exact Nat.le_of_lt_succ (Nat.mod_lt _ (Nat.succ_pos _))

/-- Whatever is named around an occurrence or inside it occurs, and so do
`names`; the last number is that of the final tabstop. -/
structure Closed (around : Option TabstopIdx) (names : List TabstopIdx)
    (occs : List Occurrence) : Prop where
  le : ∀ o ∈ occs, o.idx ≤ lastTabstopIdx
  outward : ∀ o ∈ occs, o.around = around
    ∨ ∃ o' ∈ occs, o.around = some o'.idx
  inward : ∀ o ∈ occs, ∀ m ∈ o.shows, ∃ o' ∈ occs, o'.idx = m
  names : ∀ m ∈ names, ∃ o ∈ occs, o.idx = m

variable {around : Option TabstopIdx} {names names' : List TabstopIdx}
  {occs occs' : List Occurrence}

theorem Closed.nil : Closed around [] [] :=
  ⟨nofun, nofun, nofun, nofun⟩

/-- An occurrence that shows nothing. -/
theorem Closed.single (n : Nat) (void : Bool) :
    Closed around [.elaborate n] [⟨.elaborate n, around, void, []⟩] := by
  refine ⟨?_, ?_, ?_, ?_⟩
  · intro o ho
    rw [List.mem_singleton.mp ho]
    exact elaborate_le n
  · intro o ho
    rw [List.mem_singleton.mp ho]
    exact .inl rfl
  · intro o ho
    rw [List.mem_singleton.mp ho]
    exact nofun
  · intro m hm
    rw [List.mem_singleton.mp hm]
    exact ⟨_, List.mem_singleton_self _, rfl⟩

theorem Closed.append (h : Closed around names occs)
    (h' : Closed around names' occs') :
    Closed around (names ++ names') (occs ++ occs') := by
  refine ⟨?_, ?_, ?_, ?_⟩
  · intro o ho
    exact (List.mem_append.mp ho).elim (h.le o) (h'.le o)
  · intro o ho
    rcases List.mem_append.mp ho with ho | ho
    · exact (h.outward o ho).imp id fun ⟨o', ho', heq⟩ =>
        ⟨o', List.mem_append_left _ ho', heq⟩
    · exact (h'.outward o ho).imp id fun ⟨o', ho', heq⟩ =>
        ⟨o', List.mem_append_right _ ho', heq⟩
  · intro o ho m hm
    rcases List.mem_append.mp ho with ho | ho
    · obtain ⟨o', ho', heq⟩ := h.inward o ho m hm
      exact ⟨o', List.mem_append_left _ ho', heq⟩
    · obtain ⟨o', ho', heq⟩ := h'.inward o ho m hm
      exact ⟨o', List.mem_append_right _ ho', heq⟩
  · intro m hm
    rcases List.mem_append.mp hm with hm | hm
    · obtain ⟨o', ho', heq⟩ := h.names m hm
      exact ⟨o', List.mem_append_left _ ho', heq⟩
    · obtain ⟨o', ho', heq⟩ := h'.names m hm
      exact ⟨o', List.mem_append_right _ ho', heq⟩

/-- A placeholder around a text. -/
theorem Closed.placeholder {n : Nat}
    (h : Closed (some (.elaborate n)) names occs) :
    Closed around [.elaborate n]
      (occs ++ [⟨.elaborate n, around, false, names⟩]) := by
  have hself : (⟨.elaborate n, around, false, names⟩ : Occurrence)
      ∈ occs ++ [⟨.elaborate n, around, false, names⟩] :=
    List.mem_append_right _ (List.mem_singleton_self _)
  refine ⟨?_, ?_, ?_, ?_⟩
  · intro o ho
    rcases List.mem_append.mp ho with ho | ho
    · exact h.le o ho
    · rw [List.mem_singleton.mp ho]
      exact elaborate_le n
  · intro o ho
    rcases List.mem_append.mp ho with ho | ho
    · rcases h.outward o ho with hin | ⟨o', ho', heq⟩
      · exact .inr ⟨_, hself, hin⟩
      · exact .inr ⟨o', List.mem_append_left _ ho', heq⟩
    · rw [List.mem_singleton.mp ho]
      exact .inl rfl
  · intro o ho m hm
    obtain ⟨o', ho', heq⟩ : ∃ o' ∈ occs, o'.idx = m := by
      rcases List.mem_append.mp ho with ho | ho
      · exact h.inward o ho m hm
      · rw [List.mem_singleton.mp ho] at hm
        exact h.names m hm
    exact ⟨o', List.mem_append_left _ ho', heq⟩
  · intro m hm
    rw [List.mem_singleton.mp hm]
    exact ⟨_, hself, rfl⟩

mutual

theorem closed_occurrencesOf (around : Option TabstopIdx) :
    ∀ element : Parser.SnippetElement,
      Closed around (numbersOf element)
        (occurrencesOf compiles around element)
  | .tabstop tabstop transform => Closed.single tabstop _
  | .choice tabstop _ => Closed.single tabstop _
  | .text _ => Closed.nil
  | .variable _ none _ => Closed.nil
  | .variable _ (some default) _ => closed_occurrences around default
  | .placeholder tabstop value => by
      unfold occurrencesOf numbersOf
      split
      · exact Closed.single tabstop _
      · exact (closed_occurrences _ value).placeholder

theorem closed_occurrences (around : Option TabstopIdx) :
    ∀ elements : List Parser.SnippetElement,
      Closed around (numbers elements) (occurrences compiles around elements)
  | [] => Closed.nil
  | element :: rest =>
      (closed_occurrencesOf around element).append
        (closed_occurrences around rest)

end

-- == renumbering

variable {table : List Tabstop}

/-- A number and its place in a table. -/
def Place (table : List Tabstop) (i idx : TabstopIdx) : Prop :=
  ∃ t, table[i]? = some t ∧ t.idx = idx

theorem Place.unique {x y : TabstopIdx} (hx : Place table i x)
    (hy : Place table i y) : x = y := by
  obtain ⟨t, ht, rfl⟩ := hx
  obtain ⟨t', ht', rfl⟩ := hy
  rw [Option.some.inj (ht.symm.trans ht')]

theorem Place.injective (h : Table table) {j x : TabstopIdx}
    (hi : Place table i x) (hj : Place table j x) : i = j := by
  obtain ⟨t, ht, htx⟩ := hi
  obtain ⟨t', ht', htx'⟩ := hj
  obtain ⟨hi, rfl⟩ := List.getElem?_eq_some_iff.mp ht
  obtain ⟨hj, rfl⟩ := List.getElem?_eq_some_iff.mp ht'
  have hlt := List.pairwise_iff_getElem.mp h
  rcases Nat.lt_trichotomy i j with hij | hij | hij
  · exact absurd (htx.trans htx'.symm) (hlt i j hi hj hij).ne
  · exact hij
  · exact absurd (htx'.trans htx.symm) (hlt j i hj hi hij).ne

theorem resolve_eq_ok (h : Table table) :
    resolve table idx = .ok i ↔ Place table i idx := by
  have hfind : ∀ {i}, table.findIdx? (·.idx = idx) = some i →
      Place table i idx := by
    intro i hi
    obtain ⟨hlt, heq, -⟩ := List.findIdx?_eq_some_iff_getElem.mp hi
    exact ⟨_, List.getElem?_eq_getElem hlt, of_decide_eq_true heq⟩
  unfold resolve
  constructor
  · intro hi
    split at hi
    · next hi' =>
        injection hi with hi
        exact hi ▸ hfind hi'
    · cases hi
  · intro hi
    cases hcase : table.findIdx? (·.idx = idx) with
    | none =>
        obtain ⟨t, ht, htx⟩ := hi
        have := List.findIdx?_eq_none_iff.mp hcase t
          (List.mem_of_getElem? ht)
        exact absurd htx (of_decide_eq_false this)
    | some j => rw [(hfind hcase).injective h hi]

theorem exists_place (h : ∃ t ∈ table, t.idx = idx) :
    ∃ i, Place table i idx := by
  obtain ⟨t, ht, htx⟩ := h
  obtain ⟨i, hi⟩ := List.getElem?_of_mem ht
  exact ⟨i, t, hi, htx⟩

/-- Names replaced by places. -/
abbrev Resolved (table : List Tabstop) : List TabstopIdx →
    List TabstopIdx → Prop :=
  List.Forall₂ fun idx i => Place table i idx

mutual

theorem renumberElement_spec (h : Table table) :
    ∀ element : SnippetElement,
      (∀ m ∈ element.mentions, ∃ t ∈ table, t.idx = m) →
      ∃ element', renumberElement table element = .ok element'
        ∧ Resolved table element.mentions element'.mentions
  | .tabstop idx, hm => by
      obtain ⟨i, hi⟩ := exists_place (hm idx (List.mem_singleton_self _))
      refine ⟨.tabstop i, ?_, .cons hi .nil⟩
      unfold renumberElement
      rw [(resolve_eq_ok h).mpr hi]
      rfl
  | .variable name none transform, _ => ⟨_, rfl, .nil⟩
  | .text text, _ => ⟨_, rfl, .nil⟩
  | .variable name (some default) transform, hm => by
      obtain ⟨default', hd, hres⟩ := renumberTabstopsIn_spec h default hm
      refine ⟨.variable name (some default') transform, ?_, hres⟩
      unfold renumberElement
      rw [hd]
      rfl

/-- What names only numbers of the table can be renumbered, to their
places. -/
theorem renumberTabstopsIn_spec (h : Table table) :
    ∀ elements : List SnippetElement,
      (∀ m ∈ mentions elements, ∃ t ∈ table, t.idx = m) →
      ∃ elements', renumberTabstopsIn table elements = .ok elements'
        ∧ Resolved table (mentions elements) (mentions elements')
  | [], _ => ⟨[], rfl, .nil⟩
  | element :: rest, hm => by
      obtain ⟨element', he, hres⟩ := renumberElement_spec h element
        fun m hmem => hm m (List.mem_append_left _ hmem)
      obtain ⟨rest', hr, hres'⟩ := renumberTabstopsIn_spec h rest
        fun m hmem => hm m (List.mem_append_right _ hmem)
      refine ⟨element' :: rest', ?_, List.rel_append hres hres'⟩
      unfold renumberTabstopsIn
      rw [he, ok_bind, hr]
      rfl

end

/-- A tabstop with its names replaced by places. -/
structure Renumbered (table : List Tabstop) (t t' : Tabstop) : Prop where
  parent : Option.Rel (fun p i => Place table i p) t.parent t'.parent
  mentions : Resolved table t.kind.mentions t'.kind.mentions

theorem renumberParent_spec (h : Table table) (parent : Option TabstopIdx)
    (hparent : ∀ p ∈ parent, ∃ u ∈ table, u.idx = p) :
    ∃ parent', renumberParent table parent = .ok parent'
      ∧ Option.Rel (fun p i => Place table i p) parent parent' := by
  cases parent with
  | none => exact ⟨none, rfl, .none⟩
  | some p =>
      obtain ⟨i, hi⟩ := exists_place (hparent p rfl)
      refine ⟨some i, ?_, .some hi⟩
      unfold renumberParent
      dsimp only
      rw [(resolve_eq_ok h).mpr hi]
      rfl

theorem renumberKind_spec (h : Table table) (kind : TabstopKind)
    (hkind : ∀ m ∈ kind.mentions, ∃ u ∈ table, u.idx = m) :
    ∃ kind', renumberKind table kind = .ok kind'
      ∧ Resolved table kind.mentions kind'.mentions := by
  cases kind with
  | placeholder default =>
      obtain ⟨default', hd, hres⟩ := renumberTabstopsIn_spec h default hkind
      refine ⟨.placeholder default', ?_, hres⟩
      unfold renumberKind
      dsimp only
      rw [hd]
      rfl
  | choice choices => exact ⟨_, rfl, .nil⟩
  | empty => exact ⟨_, rfl, .nil⟩
  | transform transform => exact ⟨_, rfl, .nil⟩

theorem renumberTabstop_spec (h : Table table) (t : Tabstop)
    (hparent : ∀ p ∈ t.parent, ∃ u ∈ table, u.idx = p)
    (hkind : ∀ m ∈ t.kind.mentions, ∃ u ∈ table, u.idx = m) :
    ∃ t', renumberTabstop table t = .ok t' ∧ Renumbered table t t' := by
  obtain ⟨kind, hk, hres⟩ := renumberKind_spec h t.kind hkind
  obtain ⟨parent, hp, hrel⟩ := renumberParent_spec h t.parent hparent
  refine ⟨⟨t.idx, parent, kind⟩, ?_, hrel, hres⟩
  unfold renumberTabstop
  rw [hp, ok_bind, hk]
  rfl

-- == the table

/-- A table that has every definition of a text, and the final tabstop
last. -/
structure Tabulates (occs : List Occurrence) (table : List Tabstop) :
    Prop where
  sorted : Table table
  outward : ∀ x y, (∃ t ∈ table, t.idx = x ∧ t.parent = some y)
    ↔ DefinedIn occs x y
  inward : ∀ x y, (∃ t ∈ table, t.idx = x ∧ y ∈ t.kind.mentions)
    ↔ DefinedWith occs x y
  occurs : ∀ o ∈ occs, ∃ t ∈ table, t.idx = o.idx
  last : ∃ t ∈ table, t.idx = lastTabstopIdx

/-- A tabstop of a table is found by its number. -/
theorem find_table (h : Table table) {t : Tabstop} (ht : t ∈ table) :
    table.find? (·.idx == t.idx) = some t := by
  induction table with
  | nil => cases ht
  | cons u rest ih =>
      obtain ⟨hu, hrest⟩ := List.pairwise_cons.mp h
      rcases List.mem_cons.mp ht with rfl | ht
      · rw [List.find?_cons, beq_self_eq_true]
      · rw [List.find?_cons, beq_false_of_ne (hu t ht).ne]
        exact ih hrest ht

/-- Every number that occurs has a definition. -/
theorem exists_definition {o : Occurrence} (ho : o ∈ occs) :
    ∃ d, definition occs o.idx = some d := by
  have hmem : o ∈ occs.filter (·.idx == o.idx) :=
    List.mem_filter.mpr ⟨ho, beq_self_eq_true _⟩
  unfold definition chosen
  cases (occs.filter (·.idx == o.idx)).find? fun o => !o.void with
  | some d => exact ⟨d, rfl⟩
  | none =>
      rw [Option.none_or]
      cases hlast : (occs.filter (·.idx == o.idx)).getLast? with
      | some d => exact ⟨d, rfl⟩
      | none =>
          rw [List.getLast?_eq_none_iff.mp hlast] at hmem
          cases hmem

/-- A definition is an occurrence. -/
theorem definition_mem {d : Occurrence} (hd : definition occs idx = some d) :
    d ∈ occs ∧ d.idx = idx := by
  have hmem : d ∈ occs.filter (·.idx == idx) := by
    unfold definition chosen at hd
    rcases Option.or_eq_some_iff.mp hd with hd | ⟨-, hd⟩
    · exact List.mem_of_find?_eq_some hd
    · exact List.mem_of_getLast? hd
  obtain ⟨hmem, hidx⟩ := List.mem_filter.mp hmem
  exact ⟨hmem, beq_iff_eq.mp hidx⟩

theorem mentions_append (elements elements' : List SnippetElement) :
    mentions (elements ++ elements') = mentions elements
      ++ mentions elements' := by
  induction elements with
  | nil => rfl
  | cons element rest ih =>
      rw [List.cons_append, mentions, mentions, ih, List.append_assoc]

/-- The table after `ensure_last_tabstop`. -/
theorem ensureLast_spec (elements : List SnippetElement)
    {pushed : List Tabstop}
    (hle : ∀ t ∈ pushed, t.idx ≤ lastTabstopIdx) :
    Tabulates (pushed.map Tabstop.occurrence)
      (Snippet.ensureLastTabstop ⟨elements, fixupTabstops pushed⟩).tabstops
    ∧ ∀ m ∈ mentions
        (Snippet.ensureLastTabstop ⟨elements, fixupTabstops pushed⟩).elements,
      m ∈ mentions elements ∨ m = lastTabstopIdx := by
  obtain ⟨htable, hmem, hfind⟩ := fixup_spec pushed
  generalize fixupTabstops pushed = table at htable hmem hfind
  -- the table has the definitions and nothing else
  have hdef : ∀ t ∈ table, definition (pushed.map Tabstop.occurrence) t.idx
      = some t.occurrence := by
    intro t ht
    rw [← hfind, find_table htable ht, Option.map_some]
  have hkept : ∀ {x d},
      definition (pushed.map Tabstop.occurrence) x = some d →
      ∃ t ∈ table, t.idx = x ∧ t.occurrence = d := by
    intro x d hd
    rw [← hfind, Option.map_eq_some_iff] at hd
    obtain ⟨t, ht, hd⟩ := hd
    have hx := List.find?_some ht
    exact ⟨t, List.mem_of_find?_eq_some ht, beq_iff_eq.mp hx, hd⟩
  have hout : ∀ x y, (∃ t ∈ table, t.idx = x ∧ t.parent = some y)
      ↔ DefinedIn (pushed.map Tabstop.occurrence) x y := by
    intro x y
    constructor
    · rintro ⟨t, ht, rfl, hy⟩
      exact ⟨_, hdef t ht, hy⟩
    · rintro ⟨d, hd, hy⟩
      obtain ⟨t, ht, hx, rfl⟩ := hkept hd
      exact ⟨t, ht, hx, hy⟩
  have hin : ∀ x y, (∃ t ∈ table, t.idx = x ∧ y ∈ t.kind.mentions)
      ↔ DefinedWith (pushed.map Tabstop.occurrence) x y := by
    intro x y
    constructor
    · rintro ⟨t, ht, rfl, hy⟩
      exact ⟨_, hdef t ht, hy⟩
    · rintro ⟨d, hd, hy⟩
      obtain ⟨t, ht, hx, rfl⟩ := hkept hd
      exact ⟨t, ht, hx, hy⟩
  have hocc : ∀ o ∈ pushed.map Tabstop.occurrence,
      ∃ t ∈ table, t.idx = o.idx := by
    intro o ho
    obtain ⟨d, hd⟩ := exists_definition ho
    obtain ⟨t, ht, hx, -⟩ := hkept hd
    exact ⟨t, ht, hx⟩
  by_cases hlast : ∃ t, table.getLast? = some t ∧ t.idx = lastTabstopIdx
  · obtain ⟨t, ht, hidx⟩ := hlast
    have hself : Snippet.ensureLastTabstop ⟨elements, table⟩
        = ⟨elements, table⟩ := by
      unfold Snippet.ensureLastTabstop
      simp only [ht, hidx, if_true]
    rw [hself]
    exact ⟨⟨htable, hout, hin, hocc, t, List.mem_of_getLast? ht, hidx⟩,
      fun m hm => .inl hm⟩
  · have hpush : Snippet.ensureLastTabstop ⟨elements, table⟩
        = ⟨elements ++ [.tabstop lastTabstopIdx],
          table ++ [⟨lastTabstopIdx, none, .empty⟩]⟩ := by
      unfold Snippet.ensureLastTabstop
      cases ht : table.getLast? with
      | none => rfl
      | some t =>
          have hidx : t.idx ≠ lastTabstopIdx := fun h => hlast ⟨t, ht, h⟩
          simp only [hidx, if_false]
          rfl
    have hlt : ∀ t ∈ table, t.idx < lastTabstopIdx := by
      intro t ht
      refine Nat.lt_of_le_of_ne (hle t (hmem t ht)) fun hidx => hlast ?_
      obtain ⟨before, after, rfl⟩ := List.append_of_mem ht
      cases after with
      | nil => exact ⟨t, List.getLast?_concat, hidx⟩
      | cons u after =>
          have hu : t.idx < u.idx :=
            (List.pairwise_cons.mp (List.pairwise_append.mp htable).2.1).1 u
              List.mem_cons_self
          have hule := hle u (hmem u (List.mem_append_right _
            (List.mem_cons_of_mem _ List.mem_cons_self)))
          exact absurd (hidx ▸ hu) (Nat.not_lt_of_le hule)
    rw [hpush]
    refine ⟨⟨?_, ?_, ?_, ?_, ?_⟩, ?_⟩
    · refine List.pairwise_append.mpr
        ⟨htable, List.pairwise_singleton _ _, fun t ht u hu => ?_⟩
      rw [List.mem_singleton.mp hu]
      exact hlt t ht
    · intro x y
      rw [← hout]
      constructor
      · rintro ⟨t, ht, hx, hy⟩
        rcases List.mem_append.mp ht with ht | ht
        · exact ⟨t, ht, hx, hy⟩
        · rw [List.mem_singleton.mp ht] at hy
          cases hy
      · rintro ⟨t, ht, hx, hy⟩
        exact ⟨t, List.mem_append_left _ ht, hx, hy⟩
    · intro x y
      rw [← hin]
      constructor
      · rintro ⟨t, ht, hx, hy⟩
        rcases List.mem_append.mp ht with ht | ht
        · exact ⟨t, ht, hx, hy⟩
        · rw [List.mem_singleton.mp ht] at hy
          cases hy
      · rintro ⟨t, ht, hx, hy⟩
        exact ⟨t, List.mem_append_left _ ht, hx, hy⟩
    · intro o ho
      obtain ⟨t, ht, hx⟩ := hocc o ho
      exact ⟨t, List.mem_append_left _ ht, hx⟩
    · exact ⟨_, List.mem_append_right _ (List.mem_singleton_self _), rfl⟩
    · intro m hm
      rw [mentions_append] at hm
      exact (List.mem_append.mp hm).imp id fun hm => List.mem_singleton.mp hm

/-- A snippet whose tabstops are those of a table, and whose names are
places in it. -/
structure Places (table : List Tabstop) (s : Snippet) : Prop where
  tabstops : List.Forall₂ (Renumbered table) table s.tabstops
  elements : ∀ m ∈ mentions s.elements, m < s.tabstops.length

theorem Place.lt (h : Place table i idx) : i < table.length := by
  obtain ⟨t, ht, -⟩ := h
  exact (List.getElem?_eq_some_iff.mp ht).1

/-- `Snippet::new` always succeeds, with the definitions of the text under
the places of their numbers. -/
theorem new_spec (elements : List Parser.SnippetElement) :
    ∃ s table, Snippet.new compiles elements = .ok s
      ∧ Tabulates (occurrences compiles none elements) table
      ∧ Places table s := by
  obtain ⟨pushed, htable, hoccs, hnames⟩ :=
    @elaborate_spec compiles none elements []
  have hclosed := @closed_occurrences compiles none elements
  have hle : ∀ t ∈ pushed, t.idx ≤ lastTabstopIdx := by
    intro t ht
    exact hclosed.le t.occurrence (hoccs ▸ List.mem_map_of_mem ht)
  obtain ⟨htab, hels⟩ := ensureLast_spec
    (elaborate compiles none elements []).1 hle
  rw [hoccs] at htab
  rw [List.nil_append] at htable
  unfold Snippet.new
  dsimp only
  rw [htable]
  generalize Snippet.ensureLastTabstop ⟨(elaborate compiles none elements []).1,
    fixupTabstops pushed⟩ = self at htab hels
  obtain ⟨elements', table⟩ := self
  dsimp only at htab hels
  -- whatever is named is in the table
  have hparent : ∀ t ∈ table, ∀ p ∈ t.parent, ∃ u ∈ table, u.idx = p := by
    intro t ht p hp
    obtain ⟨d, hd, hdp⟩ := (htab.outward t.idx p).mp ⟨t, ht, rfl, hp⟩
    rcases hclosed.outward d (definition_mem hd).1 with hn | ⟨o, ho, heq⟩
    · rw [hn] at hdp
      cases hdp
    · obtain ⟨u, hu, huo⟩ := htab.occurs o ho
      refine ⟨u, hu, ?_⟩
      rw [huo]
      exact Option.some.inj (heq.symm.trans hdp)
  have hkind : ∀ t ∈ table, ∀ m ∈ t.kind.mentions, ∃ u ∈ table, u.idx = m := by
    intro t ht m hm
    obtain ⟨d, hd, hdm⟩ := (htab.inward t.idx m).mp ⟨t, ht, rfl, hm⟩
    obtain ⟨o, ho, hom⟩ := hclosed.inward d (definition_mem hd).1 m hdm
    obtain ⟨u, hu, huo⟩ := htab.occurs o ho
    exact ⟨u, hu, huo.trans hom⟩
  have hmentions : ∀ m ∈ mentions elements', ∃ u ∈ table, u.idx = m := by
    intro m hm
    rcases hels m hm with hm | rfl
    · rw [hnames] at hm
      obtain ⟨o, ho, hom⟩ := hclosed.names m hm
      obtain ⟨u, hu, huo⟩ := htab.occurs o ho
      exact ⟨u, hu, huo.trans hom⟩
    · exact htab.last
  obtain ⟨renumbered, hr, hres⟩ :=
    renumberTabstopsIn_spec htab.sorted elements' hmentions
  obtain ⟨tabstops, ht⟩ := mapM_ok (f := renumberTabstop table)
    fun t ht => (renumberTabstop_spec htab.sorted t (hparent t ht)
      (hkind t ht)).imp fun _ h => h.1
  have hall : List.Forall₂ (Renumbered table) table tabstops := by
    have hmem : ∀ t ∈ table, ∀ t', renumberTabstop table t = .ok t' →
        Renumbered table t t' := by
      intro t ht t' ht'
      obtain ⟨t'', heq, hren⟩ := renumberTabstop_spec htab.sorted t
        (hparent t ht) (hkind t ht)
      injection ht'.symm.trans heq with heq
      exact heq ▸ hren
    have hboth := (List.forall₂_and_left (p := (· ∈ table)) table
      tabstops).mpr ⟨fun t ht => ht, mapM_eq_ok.mp ht⟩
    exact hboth.imp fun t t' h => hmem t h.1 t' h.2
  refine ⟨⟨renumbered, tabstops⟩, table, ?_, htab, hall, ?_⟩
  · unfold Snippet.renumberTabstops
    dsimp only
    rw [hr, ok_bind, ht]
    rfl
  · intro m hm
    rw [← hall.length_eq]
    obtain ⟨idx, -, hplace⟩ := exists_of_forall₂ hres m hm
    exact hplace.lt

end Zmax.Snippets
