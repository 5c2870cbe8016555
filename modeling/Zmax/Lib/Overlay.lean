/-
Lists laid over one another: an item of the right list takes the one of its
name out of the left list and goes to the end, joined with it.

The names within a list are distinct. Then the layers may be grouped in any
way, if the joining of items may (`merge_assoc`).
-/
import Mathlib.Data.List.Nodup

namespace Overlay

variable {α κ : Type*} [DecidableEq κ]

section
variable (name : α → Option κ) (join : α → α → α)

/-- The item of the same name. -/
def partner (left : List α) (r : α) : Option α :=
  (name r).bind fun k => left.find? fun l => name l = some k

/-- One item onto a list. -/
def push (left : List α) (r : α) : List α :=
  match partner name left r with
  | some l => left.eraseP (fun l => name l = name r) ++ [join l r]
  | none => left ++ [r]

def merge (left right : List α) : List α := right.foldl (push name join) left

/-- No two items of one name. -/
def Distinct (l : List α) : Prop := (l.filterMap name).Nodup

/-- The items that no item of the right list replaces. -/
def kept (left right : List α) : List α :=
  left.filter fun l => (name l).all fun k => k ∉ right.filterMap name

/-- An item of the right list, joined with what it is laid over. -/
def laid (left : List α) (r : α) : α :=
  (partner name left r).elim r (join · r)

/-- Joining keeps the name, and `P` of the items. -/
structure Joins (P : α → Prop) : Prop where
  keeps {l r : α} : P l → P r → name l = name r → name l ≠ none →
    P (join l r)
  name_join {l r : α} : P l → P r → name l = name r → name l ≠ none →
    name (join l r) = name r

end

variable {name : α → Option κ} {join : α → α → α} {P : α → Prop}
  {l r x y : α} {left right : List α} {k : κ}

-- == partners

theorem partner_eq_some (h : partner name left r = some l) :
    l ∈ left ∧ name l = name r ∧ name l ≠ none := by
  obtain ⟨k, hk, hl⟩ := Option.bind_eq_some_iff.mp h
  have hname : name l = some k := by simpa using List.find?_some hl
  exact ⟨List.mem_of_find?_eq_some hl, hname.trans hk.symm,
    hname ▸ Option.some_ne_none k⟩

theorem partner_eq_none :
    partner name left r = none ↔
      ∀ k, name r = some k → k ∉ left.filterMap name := by
  unfold partner
  cases h : name r with
  | none => exact ⟨fun _ => nofun, fun _ => rfl⟩
  | some k =>
      rw [Option.bind_some, List.find?_eq_none]
      refine ⟨fun hn k' hk' hmem => ?_, fun hn l hl hk => ?_⟩
      · obtain ⟨l, hl, hk⟩ := List.mem_filterMap.mp hmem
        cases hk'
        exact hn l hl (decide_eq_true hk)
      · exact hn k rfl (List.mem_filterMap.mpr ⟨l, hl, of_decide_eq_true hk⟩)

theorem partner_congr (h : name x = name y) :
    partner name left x = partner name left y := by
  unfold partner
  rw [h]

/-- In a list of distinct names the item of a name is the only one. -/
theorem partner_of_mem (hd : Distinct name left) (hl : l ∈ left)
    (h : name l = name r) (hn : name l ≠ none) :
    partner name left r = some l := by
  induction left with
  | nil => cases hl
  | cons x left ih =>
      obtain ⟨k, hk⟩ := Option.ne_none_iff_exists'.mp hn
      unfold Distinct at hd
      unfold partner at ih ⊢
      rw [← h, hk, Option.bind_some] at ih ⊢
      rcases List.mem_cons.mp hl with rfl | hl
      · exact List.find?_cons_of_pos (decide_eq_true hk)
      · cases hx : name x with
        | none =>
            rw [List.filterMap_cons_none hx] at hd
            rw [List.find?_cons_of_neg (by simp [hx])]
            exact ih hd hl
        | some k' =>
            rw [List.filterMap_cons_some hx, List.nodup_cons] at hd
            have hne : k' ≠ k := by
              rintro rfl
              exact hd.1 (List.mem_filterMap.mpr ⟨l, hl, hk⟩)
            rw [List.find?_cons_of_neg (by simpa [hx] using hne)]
            exact ih hd.2 hl

omit [DecidableEq κ] in
theorem Distinct.tail (h : Distinct name (x :: left)) :
    Distinct name left := by
  unfold Distinct at h ⊢
  cases hx : name x with
  | none => rwa [List.filterMap_cons_none hx] at h
  | some k =>
      rw [List.filterMap_cons_some hx] at h
      exact (List.nodup_cons.mp h).2

omit [DecidableEq κ] in
theorem Distinct.head (h : Distinct name (x :: left)) (hk : name x = some k) :
    k ∉ left.filterMap name := by
  unfold Distinct at h
  rw [List.filterMap_cons_some hk] at h
  exact (List.nodup_cons.mp h).1

-- == pushing

theorem kept_of_forall (h : ∀ l ∈ left, ∀ k, name l = some k →
    k ∉ right.filterMap name) : kept name left right = left := by
  unfold kept
  rw [List.filter_eq_self]
  intro l hl
  cases hk : name l with
  | none => rfl
  | some k => exact decide_eq_true (h l hl k hk)

/-- Without the item of a name a list of distinct names is what is kept. -/
theorem eraseP_eq_kept (hd : Distinct name left) (hr : name r = some k) :
    left.eraseP (fun l => name l = some k) = kept name left [r] := by
  induction left with
  | nil => rfl
  | cons x left ih =>
      have hnames : [r].filterMap name = [k] := List.filterMap_cons_some hr
      by_cases hx : name x = some k
      · rw [List.eraseP_cons_of_pos (by simpa using hx)]
        unfold kept
        rw [List.filter_cons_of_neg (by simp [hx, hr])]
        refine (kept_of_forall fun l hl k' hk' => ?_).symm
        rw [hnames, List.mem_singleton]
        rintro rfl
        exact hd.head hx (List.mem_filterMap.mpr ⟨l, hl, hk'⟩)
      · rw [List.eraseP_cons_of_neg (by simpa using hx), ih hd.tail]
        unfold kept
        refine (List.filter_cons_of_pos ?_).symm
        cases hk : name x with
        | none => rfl
        | some k' =>
            rw [hnames, Option.all_some, decide_eq_true_iff,
              List.mem_singleton]
            rintro rfl
            exact hx hk

theorem push_eq (hd : Distinct name left) :
    push name join left r =
      kept name left [r] ++ [laid name join left r] := by
  unfold push laid
  cases hp : partner name left r with
  | none =>
      have hself : kept name left [r] = left := by
        refine kept_of_forall fun l hl k hk hmem => ?_
        obtain ⟨r', hr', hk'⟩ := List.mem_filterMap.mp hmem
        obtain rfl := List.mem_singleton.mp hr'
        exact partner_eq_none.mp hp k hk' (List.mem_filterMap.mpr ⟨l, hl, hk⟩)
      rw [hself]
      rfl
  | some l =>
      obtain ⟨-, hlr, hl⟩ := partner_eq_some hp
      obtain ⟨k, hk⟩ := Option.ne_none_iff_exists'.mp (hlr ▸ hl)
      dsimp only
      rw [hk, eraseP_eq_kept hd hk]
      rfl

-- == what is kept

theorem mem_kept : l ∈ kept name left right ↔
    l ∈ left ∧ ∀ k, name l = some k → k ∉ right.filterMap name := by
  unfold kept
  rw [List.mem_filter]
  refine and_congr_right fun _ => ?_
  cases hk : name l with
  | none => exact ⟨fun _ => nofun, fun _ => rfl⟩
  | some k =>
      rw [Option.all_some, decide_eq_true_iff]
      exact ⟨fun h k' hk' => Option.some.inj hk' ▸ h, fun h => h k rfl⟩

theorem mem_names_kept : k ∈ (kept name left right).filterMap name ↔
    k ∈ left.filterMap name ∧ k ∉ right.filterMap name := by
  constructor
  · intro h
    obtain ⟨l, hl, hk⟩ := List.mem_filterMap.mp h
    obtain ⟨hl, hnot⟩ := mem_kept.mp hl
    exact ⟨List.mem_filterMap.mpr ⟨l, hl, hk⟩, hnot k hk⟩
  · rintro ⟨h, hnot⟩
    obtain ⟨l, hl, hk⟩ := List.mem_filterMap.mp h
    refine List.mem_filterMap.mpr ⟨l, mem_kept.mpr ⟨hl, fun k' hk' => ?_⟩, hk⟩
    rwa [← Option.some.inj (hk.symm.trans hk')]

theorem kept_append (left' : List α) : kept name (left ++ left') right =
    kept name left right ++ kept name left' right :=
  List.filter_append ..

theorem kept_kept (xs ys : List α) :
    kept name (kept name left xs) ys = kept name left (xs ++ ys) := by
  unfold kept
  rw [List.filter_filter]
  refine List.filter_congr fun l _ => ?_
  cases name l with
  | none => rfl
  | some k =>
      simp only [Option.all_some, List.filterMap_append, List.mem_append,
        not_or, Bool.decide_and]
      exact Bool.and_comm _ _

theorem kept_congr {right' : List α} (h : ∀ k, k ∈ right.filterMap name ↔
    k ∈ right'.filterMap name) :
    kept name left right = kept name left right' := by
  unfold kept
  refine List.filter_congr fun l _ => ?_
  cases name l with
  | none => rfl
  | some k => simp only [Option.all_some, h k]

omit [DecidableEq κ] in
theorem Distinct.sublist {left' : List α} (h : Distinct name left)
    (hsub : left'.Sublist left) : Distinct name left' :=
  List.Nodup.sublist (hsub.filterMap name) h

theorem partner_append (left' : List α) : partner name (left ++ left') r =
    (partner name left r).or (partner name left' r) := by
  unfold partner
  cases name r with
  | none => rfl
  | some k => exact List.find?_append

theorem partner_kept (hd : Distinct name left)
    (h : ∀ k, name r = some k → k ∉ right.filterMap name) :
    partner name (kept name left right) r = partner name left r := by
  cases hp : partner name left r with
  | none =>
      refine partner_eq_none.mpr fun k hk hmem => ?_
      exact partner_eq_none.mp hp k hk (mem_names_kept.mp hmem).1
  | some l =>
      obtain ⟨hl, hname, hn⟩ := partner_eq_some hp
      refine partner_of_mem (hd.sublist List.filter_sublist)
        (mem_kept.mpr ⟨hl, ?_⟩) hname hn
      rwa [hname]

theorem partner_singleton_of_ne (h : name x = name r → name r = none) :
    partner name [x] r = none := by
  refine partner_eq_none.mpr fun k hk hmem => ?_
  obtain ⟨l, hl, hk'⟩ := List.mem_filterMap.mp hmem
  obtain rfl := List.mem_singleton.mp hl
  rw [h (hk'.trans hk.symm)] at hk
  cases hk

-- == merging

omit [DecidableEq κ] in
theorem distinct_singleton (x : α) : Distinct name [x] := by
  unfold Distinct
  cases h : name x with
  | none =>
      rw [List.filterMap_cons_none h]
      exact List.nodup_nil
  | some k =>
      rw [List.filterMap_cons_some h]
      exact List.nodup_singleton k

theorem distinct_kept_append {right' : List α} (hdl : Distinct name left)
    (hdr : Distinct name right')
    (h : right'.filterMap name = right.filterMap name) :
    Distinct name (kept name left right ++ right') := by
  unfold Distinct
  rw [List.filterMap_append, List.nodup_append']
  refine ⟨hdl.sublist List.filter_sublist, hdr, fun k hk hk' => ?_⟩
  exact (mem_names_kept.mp hk).2 (h ▸ hk')

section
variable (hJ : Joins name join P) (hl : ∀ l ∈ left, P l)
include hJ hl

theorem laid_joins (hr : P r) :
    P (laid name join left r) ∧ name (laid name join left r) = name r := by
  unfold laid
  cases hp : partner name left r with
  | none => exact ⟨hr, rfl⟩
  | some l =>
      obtain ⟨hmem, hname, hn⟩ := partner_eq_some hp
      exact ⟨hJ.keeps (hl l hmem) hr hname hn,
        hJ.name_join (hl l hmem) hr hname hn⟩

theorem merge_eq (hdl : Distinct name left) (hdr : Distinct name right)
    (hr : ∀ r ∈ right, P r) :
    merge name join left right =
      kept name left right ++ right.map (laid name join left) := by
  unfold merge
  induction right generalizing left with
  | nil =>
      rw [List.map_nil, List.append_nil,
        kept_of_forall fun _ _ _ _ => List.not_mem_nil]
      rfl
  | cons r right ih =>
      obtain ⟨hPr, hr⟩ := List.forall_mem_cons.mp hr
      obtain ⟨hPlaid, hname⟩ := laid_joins hJ hl hPr
      have hhead : ∀ k, name (laid name join left r) = some k →
          k ∉ right.filterMap name := fun k hk => hdr.head (hname ▸ hk)
      have hP : ∀ l ∈ kept name left [r] ++ [laid name join left r], P l := by
        intro l hmem
        rcases List.mem_append.mp hmem with hmem | hmem
        · exact hl l (mem_kept.mp hmem).1
        · exact List.mem_singleton.mp hmem ▸ hPlaid
      have hrest : ∀ r' ∈ right, laid name join (kept name left [r] ++
          [laid name join left r]) r' = laid name join left r' := by
        intro r' hr'
        have hne : ∀ k, name r' = some k → name r ≠ some k :=
          fun k hk hk' => hdr.head hk' (List.mem_filterMap.mpr ⟨r', hr', hk⟩)
        have hkept : ∀ k, name r' = some k → k ∉ [r].filterMap name := by
          intro k hk hmem
          obtain ⟨x, hx, hxk⟩ := List.mem_filterMap.mp hmem
          exact hne k hk (List.mem_singleton.mp hx ▸ hxk)
        have hlast : name (laid name join left r) = name r' →
            name r' = none := by
          intro h
          by_contra hn
          obtain ⟨k, hk⟩ := Option.ne_none_iff_exists'.mp hn
          exact hne k hk (hname.symm.trans (h.trans hk))
        unfold laid at hlast ⊢
        rw [partner_append, partner_kept hdl hkept,
          partner_singleton_of_ne hlast, Option.or_none]
      have hself : kept name [laid name join left r] right =
          [laid name join left r] :=
        kept_of_forall fun l hmem k hk =>
          hhead k (List.mem_singleton.mp hmem ▸ hk)
      rw [List.foldl_cons, push_eq hdl, ih hP ?_ hdr.tail hr, kept_append,
        kept_kept, hself, List.map_congr_left hrest, List.append_assoc]
      · rfl
      · refine distinct_kept_append hdl (distinct_singleton _) ?_
        rw [List.filterMap_cons, List.filterMap_cons, hname]

theorem names_map_laid (hr : ∀ r ∈ right, P r) :
    (right.map (laid name join left)).filterMap name =
      right.filterMap name := by
  rw [List.filterMap_map]
  refine List.filterMap_congr fun r hmem => ?_
  exact (laid_joins hJ hl (hr r hmem)).2

section
variable (hdl : Distinct name left) (hdr : Distinct name right)
  (hr : ∀ r ∈ right, P r)
include hdl hdr hr

/-- What is merged has the names of both lists, each once. -/
theorem distinct_merge : Distinct name (merge name join left right) := by
  rw [merge_eq hJ hl hdl hdr hr]
  refine distinct_kept_append hdl ?_ (names_map_laid hJ hl hr)
  unfold Distinct
  rwa [names_map_laid hJ hl hr]

theorem mem_names_merge :
    k ∈ (merge name join left right).filterMap name ↔
      k ∈ left.filterMap name ∨ k ∈ right.filterMap name := by
  rw [merge_eq hJ hl hdl hdr hr, List.filterMap_append, List.mem_append,
    names_map_laid hJ hl hr, mem_names_kept]
  tauto

theorem joins_merge : ∀ x ∈ merge name join left right, P x := by
  rw [merge_eq hJ hl hdl hdr hr]
  intro x hx
  rcases List.mem_append.mp hx with hx | hx
  · exact hl x (mem_kept.mp hx).1
  · obtain ⟨r, hmem, rfl⟩ := List.mem_map.mp hx
    exact (laid_joins hJ hl (hr r hmem)).1

/-- The items without a name are all there. -/
theorem unnamed_merge :
    (merge name join left right).filter (name · = none) =
      left.filter (name · = none) ++ right.filter (name · = none) := by
  have hkept : (kept name left right).filter (name · = none) =
      left.filter (name · = none) := by
    unfold kept
    rw [List.filter_filter]
    refine List.filter_congr fun l _ => ?_
    cases name l <;> rfl
  have hnone : right.filter ((fun x => decide (name x = none)) ∘
      laid name join left) = right.filter (name · = none) := by
    refine List.filter_congr fun r hmem => ?_
    rw [Function.comp_apply, (laid_joins hJ hl (hr r hmem)).2]
  rw [merge_eq hJ hl hdl hdr hr, List.filter_append, hkept, List.filter_map,
    hnone]
  refine congrArg _ ?_
  refine (List.map_congr_left fun r hmem => ?_).trans (List.map_id _)
  have hn : name r = none := of_decide_eq_true (List.mem_filter.mp hmem).2
  unfold laid partner
  rw [hn]
  rfl

/-- The item of a name is the right one, joined with the left one. -/
theorem partner_merge : partner name (merge name join left right) x =
    ((partner name right x).map (laid name join left)).or
      (partner name left x) := by
  have hmerge := merge_eq hJ hl hdl hdr hr
  cases hp : partner name right x with
  | none =>
      have hright := partner_eq_none.mp hp
      rw [hmerge, partner_append, partner_kept hdl hright]
      rw [← names_map_laid hJ hl hr] at hright
      rw [partner_eq_none.mpr hright, Option.or_none]
      rfl
  | some y =>
      obtain ⟨hy, hname, hn⟩ := partner_eq_some hp
      have hlaid := (laid_joins hJ hl (hr y hy)).2
      refine partner_of_mem (distinct_merge hJ hl hdl hdr hr) ?_
        (hlaid.trans hname) (hlaid ▸ hn)
      rw [hmerge]
      exact List.mem_append_right _ (List.mem_map_of_mem hy)

end

end

section
variable {a b c : List α} (hJ : Joins name join P) (ha : ∀ x ∈ a, P x)
  (hb : ∀ y ∈ b, P y) (hc : ∀ z ∈ c, P z) (hda : Distinct name a)
  (hdb : Distinct name b) (hdc : Distinct name c)
include hJ ha hb hc hda hdb hdc

/-- Three lists may be laid over one another in either grouping, if the
items of one name in all three may be joined so. -/
theorem merge_assoc (hassoc : ∀ x ∈ a, ∀ y ∈ b, ∀ z ∈ c, name x = name z →
      name y = name z → name z ≠ none →
        join (join x y) z = join x (join y z)) :
    merge name join (merge name join a b) c =
      merge name join a (merge name join b c) := by
  have hab := joins_merge hJ ha hda hdb hb
  have hbc := joins_merge hJ hb hdb hdc hc
  have hdab := distinct_merge hJ ha hda hdb hb
  have hdbc := distinct_merge hJ hb hdb hdc hc
  have hnames : ∀ k, k ∈ (b ++ c).filterMap name ↔
      k ∈ (merge name join b c).filterMap name := by
    intro k
    rw [mem_names_merge hJ hb hdb hdc hc, List.filterMap_append,
      List.mem_append]
  have hmiddle : kept name (b.map (laid name join a)) c =
      (kept name b c).map (laid name join a) := by
    unfold kept
    rw [List.filter_map]
    refine congrArg _ (List.filter_congr fun y hy => ?_)
    rw [Function.comp_apply, (laid_joins hJ ha (hb y hy)).2]
  have hlast : ∀ z ∈ c, laid name join (merge name join a b) z =
      laid name join a (laid name join b z) := by
    intro z hz
    rw [laid, partner_merge hJ ha hda hdb hb]
    cases hpb : partner name b z with
    | none =>
        rw [laid.eq_def name join b, hpb]
        rfl
    | some y =>
        obtain ⟨hy, hyz, hn⟩ := partner_eq_some hpb
        have hjoin := hJ.name_join (hb y hy) (hc z hz) hyz hn
        rw [laid.eq_def name join b, hpb]
        show join (laid name join a y) z = laid name join a (join y z)
        rw [laid, laid, partner_congr (hjoin.trans hyz.symm)]
        cases hpa : partner name a y with
        | none => rfl
        | some x =>
            obtain ⟨hx, hxy, -⟩ := partner_eq_some hpa
            exact hassoc x hx y hy z hz (hxy.trans hyz) hyz (hyz ▸ hn)
  calc merge name join (merge name join a b) c
      = kept name (merge name join a b) c ++
          c.map (laid name join (merge name join a b)) :=
        merge_eq hJ hab hdab hdc hc
    _ = kept name a (b ++ c) ++ (kept name b c).map (laid name join a) ++
          c.map fun z => laid name join a (laid name join b z) := by
        rw [merge_eq hJ ha hda hdb hb, kept_append, kept_kept, hmiddle,
          ← merge_eq hJ ha hda hdb hb, List.map_congr_left hlast]
    _ = kept name a (merge name join b c) ++
          (merge name join b c).map (laid name join a) := by
        rw [kept_congr hnames, merge_eq hJ hb hdb hdc hc, List.map_append,
          List.map_map, List.append_assoc]
        rfl
    _ = merge name join a (merge name join b c) :=
        (merge_eq hJ ha hda hdbc hbc).symm

end

end Overlay
