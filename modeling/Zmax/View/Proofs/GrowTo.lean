/-
What a window takes from its siblings.

Every sibling but the last gives its share rounded down, and the last one
gives the rest. The rest is its own share and the residues of the others
(`Shares.rest_le_iff`), so it stays at the minimum or above when those
residues fit into what its share leaves it.
-/
import Zmax.Lib.Shares
import Zmax.View.Layout

namespace Zmax

open Shares

-- == sums

namespace U16

theorem checkedAdd_eq_ok {a b t : U16} :
    checkedAdd a b = .ok t ↔ a.val + b.val = t.val := by
  unfold checkedAdd
  split
  · rw [Except.ok.injEq, Fin.ext_iff]
  · have ht := t.isLt
    constructor
    · intro h
      cases h
    · intro h
      omega

theorem sum_eq_ok {sizes : List U16} {t : U16} :
    sum sizes = .ok t ↔ (sizes.map Fin.val).sum = t.val := by
  have hfold : ∀ {a : U16}, sizes.foldlM checkedAdd a = .ok t ↔
      a.val + (sizes.map Fin.val).sum = t.val := by
    induction sizes with
    | nil =>
        intro a
        rw [List.foldlM_nil, List.map_nil, List.sum_nil, Nat.add_zero,
          ← Fin.ext_iff]
        exact Except.ok.injEq a t ▸ Iff.rfl
    | cons b sizes ih =>
        intro a
        rw [List.foldlM_cons, bind_eq_ok, List.map_cons, List.sum_cons]
        constructor
        · rintro ⟨c, hc, h⟩
          have hab := checkedAdd_eq_ok.mp hc
          have hrest := ih.mp h
          omega
        · intro h
          have hlt := t.isLt
          have hab : a.val + b.val < 65536 := by omega
          refine ⟨⟨a.val + b.val, hab⟩, checkedAdd_eq_ok.mpr rfl, ?_⟩
          exact ih.mpr (by rw [← h]; exact Nat.add_assoc _ _ _)
  have hzero := hfold (a := 0)
  rwa [show ((0 : U16)).val = 0 from rfl, Nat.zero_add] at hzero

theorem exists_sum {sizes : List U16} (h : (sizes.map Fin.val).sum < 65536) :
    sum sizes = .ok ⟨(sizes.map Fin.val).sum, h⟩ := sum_eq_ok.mpr rfl

end U16

namespace Tree

variable {take total min : U16}

-- == giving

/-- What is left of a sibling that gives its rounded share. -/
def lessShare (take total : U16) (x : U16 × U16) : U16 :=
  ⟨x.2.val - take.val * x.1.val / total.val,
    Nat.lt_of_le_of_lt (Nat.sub_le _ _) x.2.isLt⟩

variable {back : List (U16 × U16)} {size want : U16} {sizes : List U16}
  {idx : Nat} {x : U16 × U16}

/-- Siblings without slack stay as they are. -/
theorem giveSlack_back (h : ∀ x ∈ back, x.1 = 0) (taken : U16) :
    giveSlack take total min taken back = .ok (back.map Prod.snd, taken) := by
  induction back with
  | nil => rfl
  | cons x back ih =>
      obtain ⟨hx, h⟩ := List.forall_mem_cons.mp h
      rw [giveSlack, if_pos hx, ih h]
      rfl

/-- The last of the donors gives the rest. -/
theorem giveSlack_last {slack : U16} (hslack : slack ≠ 0)
    (hsize : slack.val + min.val = size.val) (hback : ∀ x ∈ back, x.1 = 0)
    {taken : U16} (htaken : taken.val ≤ take.val) :
    giveSlack take total min taken ((slack, size) :: back) =
      if take.val - taken.val ≤ size.val then
        .ok (⟨size.val - (take.val - taken.val), by omega⟩ ::
          back.map Prod.snd, take)
      else .error .underflow := by
  have hall : back.all (·.1 = 0) = true := by simpa using hback
  have hgive : take.checkedSub taken =
      .ok ⟨take.val - taken.val, by omega⟩ := if_pos htaken
  have hadd : slack.checkedAdd min = .ok size :=
    U16.checkedAdd_eq_ok.mpr hsize
  rw [giveSlack, if_neg hslack, if_pos hall, hgive]
  simp only [ok_bind, hadd]
  by_cases hle : take.val - taken.val ≤ size.val
  · have hsub : size.checkedSub ⟨take.val - taken.val, by omega⟩ =
        .ok ⟨size.val - (take.val - taken.val), by omega⟩ := if_pos hle
    have htotal : taken.checkedAdd ⟨take.val - taken.val, by omega⟩ =
        .ok take := U16.checkedAdd_eq_ok.mpr (by
      show taken.val + (take.val - taken.val) = take.val
      omega)
    rw [if_pos hle, hsub]
    simp only [ok_bind, htotal, giveSlack_back hback]
    rfl
  · have hsub : size.checkedSub ⟨take.val - taken.val, by omega⟩ =
        .error .underflow := if_neg hle
    rw [if_neg hle, hsub]
    rfl

/-- The donors in front of the last give their rounded shares. -/
theorem giveSlack_front (hle : take.val ≤ total.val)
    {front rest : List (U16 × U16)}
    (hsize : ∀ x ∈ front, x.1 ≠ 0 → x.1.val + min.val = x.2.val)
    (hrest : rest.all (·.1 = 0) = false) :
    ∀ {taken taken' : U16},
      taken.val + floored take.val total.val (front.map (·.1.val)) =
        taken'.val →
      giveSlack take total min taken (front ++ rest) =
        (giveSlack take total min taken' rest).map fun r =>
          (front.map (lessShare take total) ++ r.1, r.2) := by
  induction front with
  | nil =>
      intro taken taken' h
      obtain rfl : taken = taken' := Fin.ext h
      rw [List.nil_append]
      cases giveSlack take total min taken rest <;> rfl
  | cons x front ih =>
      intro taken taken' h
      obtain ⟨hx, hsize⟩ := List.forall_mem_cons.mp hsize
      rw [List.map_cons, floored_cons] at h
      by_cases hzero : x.1 = 0
      · have hshare : take.val * x.1.val / total.val = 0 := by
          rw [hzero]
          show take.val * 0 / total.val = 0
          rw [Nat.mul_zero, Nat.zero_div]
        have hless : lessShare take total x = x.2 := by
          ext
          show x.2.val - take.val * x.1.val / total.val = x.2.val
          rw [hshare, Nat.sub_zero]
        rw [hshare, Nat.zero_add] at h
        rw [List.cons_append, giveSlack, if_pos hzero, ih hsize h]
        cases giveSlack take total min taken' rest with
        | error e => rfl
        | ok r =>
            rw [List.map_cons, hless]
            rfl
      · have hshare := share_le hle x.1.val
        have hgive : (U16.ofUsize (take.val * x.1.val / total.val)).val =
            take.val * x.1.val / total.val :=
          Nat.mod_eq_of_lt (Nat.lt_of_le_of_lt hshare x.1.isLt)
        have hall : (front ++ rest).all (·.1 = 0) = false := by
          rw [List.all_append, hrest, Bool.and_false]
        have hadd : x.1.checkedAdd min = .ok x.2 :=
          U16.checkedAdd_eq_ok.mpr (hx hzero)
        have hsub : x.2.checkedSub
              (U16.ofUsize (take.val * x.1.val / total.val)) =
            .ok (lessShare take total x) := by
          have hx' := hx hzero
          rw [U16.checkedSub, if_pos (by omega)]
          congr 1
          ext
          show x.2.val - _ = x.2.val - _
          rw [hgive]
        have hlt := taken'.isLt
        have htaken : taken.checkedAdd
              (U16.ofUsize (take.val * x.1.val / total.val)) =
            .ok ⟨taken.val + take.val * x.1.val / total.val, by omega⟩ :=
          U16.checkedAdd_eq_ok.mpr (by rw [hgive])
        have hrest' := @ih hsize
          ⟨taken.val + take.val * x.1.val / total.val, by omega⟩ taken'
          (by rw [← h]; exact Nat.add_assoc _ _ _)
        rw [List.cons_append, giveSlack, if_neg hzero, hall,
          if_neg Bool.false_ne_true]
        simp only [ok_bind, hadd, hsub, htaken, hrest']
        cases giveSlack take total min taken' rest <;> rfl

/-- All siblings give: the ones in front of the last donor, that donor, and
nothing behind it. -/
theorem giveSlack_spec (hle : take.val ≤ total.val)
    {front back : List (U16 × U16)} {last size : U16}
    (hsize : ∀ x ∈ front, x.1 ≠ 0 → x.1.val + min.val = x.2.val)
    (hlast : last ≠ 0) (hlastSize : last.val + min.val = size.val)
    (hback : ∀ x ∈ back, x.1 = 0)
    (hfit : floored take.val total.val (front.map (·.1.val)) ≤ take.val) :
    giveSlack take total min 0 (front ++ (last, size) :: back) =
      if take.val - floored take.val total.val (front.map (·.1.val)) ≤
          size.val then
        .ok (front.map (lessShare take total) ++
          ⟨size.val - (take.val -
            floored take.val total.val (front.map (·.1.val))), by omega⟩ ::
          back.map Prod.snd, take)
      else .error .underflow := by
  have hall : ((last, size) :: back).all (·.1 = 0) = false := by
    rw [List.all_cons, decide_eq_false hlast, Bool.false_and]
  have hlt := take.isLt
  have hfront := @giveSlack_front take total min hle front _ hsize hall 0
    ⟨floored take.val total.val (front.map (·.1.val)), by omega⟩
    (Nat.zero_add _)
  rw [hfront, giveSlack_last hlast hlastSize hback hfit]
  split <;> rfl

-- == growing

/-- What each sibling has above the minimum. -/
def slacks (sizes : List U16) (idx : Nat) (min : U16) : List U16 :=
  sizes.mapIdx fun i size => if i = idx then 0 else size.saturatingSub min

/-- What all siblings can give. -/
def room (sizes : List U16) (idx : Nat) (min : U16) : Nat :=
  ((slacks sizes idx min).map Fin.val).sum

/-- The size that a window can get. -/
def reachable (sizes : List U16) (idx : Nat) (want min size : U16) : Nat :=
  Nat.min want.val (size.val + room sizes idx min)

/-- The window has grown as far as it can, and nothing is lost. -/
structure Moved (sizes : List U16) (idx : Nat) (want min : U16)
    (out : List U16) : Prop where
  length : out.length = sizes.length
  sum : (out.map Fin.val).sum = (sizes.map Fin.val).sum
  floor : ∀ j size, j ≠ idx → out[j]? = some size → min ≤ size
  grown : ∀ size size', sizes[idx]? = some size → out[idx]? = some size' →
    size ≤ size' ∧ size' ≤ want ∧
      size'.val = reachable sizes idx want min size

/-- Nothing moves when the window cannot grow. -/
def Grown (sizes : List U16) (idx : Nat) (want min : U16) :
    Option (List U16) → Prop
  | none => ∀ size, sizes[idx]? = some size →
      reachable sizes idx want min size ≤ size.val
  | some out => Moved sizes idx want min out

/-- The residues of the rounding fit into what the last donor has left. -/
def RoundsOff (sizes : List U16) (idx : Nat) (want min : U16) : Prop :=
  ∀ size front last back, sizes[idx]? = some size →
    slacks sizes idx min = front ++ last :: back → last ≠ 0 →
    (∀ s ∈ back, s = 0) →
    let total := room sizes idx min
    let take := Nat.min (want.val - size.val) total
    residues take total (front.map Fin.val) ≤ (total - take) * last.val

theorem slacks_split (front back : List U16) (size : U16) :
    slacks (front ++ size :: back) front.length min =
      front.map (·.saturatingSub min) ++
        0 :: back.map (·.saturatingSub min) := by
  have hfront : front.mapIdx (fun i size =>
        if i = front.length then 0 else size.saturatingSub min) =
      front.map (·.saturatingSub min) := by
    refine List.ext_getElem (by simp) fun i hi _ => ?_
    rw [List.length_mapIdx] at hi
    rw [List.getElem_mapIdx, if_neg (Nat.ne_of_lt hi), List.getElem_map]
  have hback : back.mapIdx (fun i size =>
        if i + 1 + front.length = front.length then 0
        else size.saturatingSub min) =
      back.map (·.saturatingSub min) := by
    refine List.ext_getElem (by simp) fun i hi _ => ?_
    rw [List.getElem_mapIdx, if_neg (by omega), List.getElem_map]
  rw [slacks, List.mapIdx_append, List.mapIdx_cons, hfront, hback,
    if_pos (Nat.zero_add _)]

/-- Sizes are the minimum and the slack above it. -/
theorem sum_slack (h : ∀ size ∈ sizes, min ≤ size) :
    (sizes.map Fin.val).sum =
      min.val * sizes.length +
        ((sizes.map (·.saturatingSub min)).map Fin.val).sum := by
  induction sizes with
  | nil => rfl
  | cons size sizes ih =>
      obtain ⟨hsize, h⟩ := List.forall_mem_cons.mp h
      have hle : min.val ≤ size.val := hsize
      have hslack : (size.saturatingSub min).val = size.val - min.val := rfl
      rw [List.map_cons, List.map_cons, List.map_cons, List.sum_cons,
        List.sum_cons, ih h, hslack, List.length_cons, Nat.mul_succ]
      omega

theorem sum_eq_room {front back : List U16}
    (h : ∀ s ∈ front ++ size :: back, min ≤ s) :
    ((front ++ size :: back).map Fin.val).sum =
      size.val + min.val * (front.length + back.length) +
        room (front ++ size :: back) front.length min := by
  obtain ⟨hfront, hrest⟩ := List.forall_mem_append.mp h
  obtain ⟨-, hback⟩ := List.forall_mem_cons.mp hrest
  have h₁ := sum_slack hfront
  have h₂ := sum_slack hback
  have hzero : ((0 : U16)).val = 0 := rfl
  rw [room, slacks_split]
  simp only [List.map_append, List.map_cons, List.sum_append, List.sum_cons,
    hzero, Nat.mul_add] at h₁ h₂ ⊢
  omega

/-- What the siblings are to give, in all. -/
def taking (sizes : List U16) (idx : Nat) (want min size : U16) : Nat :=
  Nat.min (want.val - size.val) (room sizes idx min)

/-- What the floors of the others leave for the window. -/
theorem most_eq {front back : List U16} {size total : U16}
    (h : ∀ s ∈ front ++ size :: back, min ≤ s)
    (htotal : total.val = ((front ++ size :: back).map Fin.val).sum) :
    (total.saturatingSub (min.saturatingMul
        (U16.ofUsize ((front ++ size :: back).length - 1)))).val =
      size.val + room (front ++ size :: back) front.length min := by
  have hroom := sum_eq_room h
  have hlt := total.isLt
  have hothers : (front ++ size :: back).length - 1 =
      front.length + back.length := by simp
  have hfloors : (min.saturatingMul
      (U16.ofUsize ((front ++ size :: back).length - 1))).val =
      min.val * (front.length + back.length) := by
    rw [hothers]
    show Nat.min (min.val * ((front.length + back.length) % 65536)) 65535 = _
    rcases Nat.eq_zero_or_pos min.val with hzero | hpos
    · rw [hzero, Nat.zero_mul, Nat.zero_mul]
      rfl
    · have hcount := Nat.le_mul_of_pos_left (front.length + back.length) hpos
      rw [Nat.mod_eq_of_lt (by omega)]
      exact Nat.min_eq_left (by omega)
  show total.val - _ = _
  rw [hfloors]
  omega

/-- The cap on the wanted size is what the siblings can give. -/
theorem growTo_eq {front back : List U16} {size want : U16}
    (h : ∀ s ∈ front ++ size :: back, min ≤ s) {take total : U16}
    (hfits : ((front ++ size :: back).map Fin.val).sum < 65536)
    (htotal : total.val = room (front ++ size :: back) front.length min)
    (htake : take.val =
      taking (front ++ size :: back) front.length want min size) :
    growTo (front ++ size :: back) front.length want min =
      if take = 0 then .ok none
      else do
        let (out, taken) ← giveSlack take total min 0
          ((slacks (front ++ size :: back) front.length min).zip
            (front ++ size :: back))
        let size ← size.checkedAdd taken
        return some (out.set front.length size) := by
  have hsum : U16.sum (front ++ size :: back) = .ok ⟨_, hfits⟩ :=
    U16.exists_sum hfits
  have hindex : index (front ++ size :: back) front.length = .ok size :=
    index_eq_ok.mpr (by simp)
  have hslack : U16.sum (slacks (front ++ size :: back) front.length min) =
      .ok total := U16.sum_eq_ok.mpr htotal.symm
  have hempty : (front ++ size :: back).isEmpty = false := by simp
  have hmost := @most_eq min front back size ⟨_, hfits⟩ h rfl
  unfold growTo
  simp only [hsum, hindex, hempty, ok_bind, Bool.false_eq_true, if_false]
  generalize U16.saturatingSub ⟨_, hfits⟩ _ = most at hmost ⊢
  have hneed : (if want ≤ most then want else most).saturatingSub size =
      take := by
    ext
    rw [htake, taking]
    show (if want ≤ most then want else most).val - size.val =
      Nat.min (want.val - size.val) _
    split
    · next hle =>
        have hwant : want.val ≤ most.val := hle
        exact (Nat.min_eq_left (by omega)).symm
    · next hgt =>
        have hwant : most.val < want.val := Nat.lt_of_not_le hgt
        rw [hmost, Nat.add_sub_cancel_left]
        exact (Nat.min_eq_right (by omega)).symm
  have htotalLe : take.val ≤ total.val := by
    rw [htake, htotal]
    exact Nat.min_le_right _ _
  rw [hneed]
  by_cases hzero : take = 0
  · rw [if_pos hzero, if_pos hzero]
    rfl
  · have htotalNe : total ≠ 0 := by
      intro h0
      have h0' : total.val = 0 := congrArg Fin.val h0
      exact hzero (Fin.ext (by show take.val = 0; omega))
    have hcap : (if take ≤ total then take else total) = take :=
      if_pos htotalLe
    rw [slacks] at hslack ⊢
    rw [if_neg hzero, if_neg hzero]
    simp only [hslack, ok_bind, if_neg htotalNe, hcap]

theorem add_min_sub {a b c : Nat} (h : a ≤ b) :
    a + Nat.min (b - a) c = Nat.min b (a + c) := by
  have hmin := Nat.add_min_add_left a (b - a) c
  rw [Nat.add_sub_cancel' h] at hmin
  exact hmin.symm

theorem sum_set {xs : List Nat} {i a b : Nat} (h : xs[i]? = some a) :
    (xs.set i b).sum + a = xs.sum + b := by
  induction xs generalizing i with
  | nil => cases h
  | cons x xs ih =>
      cases i with
      | zero =>
          obtain rfl := Option.some.inj h
          rw [List.set_cons_zero, List.sum_cons, List.sum_cons]
          omega
      | succ i =>
          have hrest := ih h
          rw [List.set_cons_succ, List.sum_cons, List.sum_cons]
          omega

-- == the law

/-- The last donor, unless nobody has anything to give. -/
theorem exists_last {xs : List (U16 × U16)}
    (h : (xs.map (·.1.val)).sum ≠ 0) :
    ∃ front x back, xs = front ++ x :: back ∧ x.1 ≠ 0 ∧
      ∀ y ∈ back, y.1 = 0 := by
  induction xs using List.reverseRecOn with
  | nil => exact absurd rfl h
  | append_singleton xs x ih =>
      by_cases hx : x.1 = 0
      · have hxs : (xs.map (·.1.val)).sum ≠ 0 := by
          intro hzero
          simp [hzero, hx] at h
        obtain ⟨front, y, back, rfl, hy, hback⟩ := ih hxs
        refine ⟨front, y, back ++ [x], by simp, hy, ?_⟩
        exact List.forall_mem_append.mpr
          ⟨hback, List.forall_mem_singleton.mpr hx⟩
      · exact ⟨xs, x, [], rfl, hx, List.forall_mem_nil _⟩

/-- There is only one last donor. -/
theorem last_unique {front front' back back' : List U16} {last last' : U16}
    (h : front ++ last :: back = front' ++ last' :: back')
    (hlast : last ≠ 0) (hlast' : last' ≠ 0) (hback : ∀ s ∈ back, s = 0)
    (hback' : ∀ s ∈ back', s = 0) : front = front' ∧ last = last' := by
  have hbehind : ∀ {f f' b b' : List U16} {l l' : U16},
      f ++ l :: b = f' ++ l' :: b' → l' ≠ 0 → (∀ s ∈ b, s = 0) →
      f'.length ≤ f.length := by
    intro f f' b b' l l' heq hl' hb
    by_contra hlt
    have hget : (f ++ l :: b)[f'.length]? = some l' := by
      rw [heq]
      simp
    rw [List.getElem?_append_right (by omega),
      show f'.length - f.length = (f'.length - f.length - 1) + 1 by omega,
      List.getElem?_cons_succ] at hget
    exact hl' (hb l' (List.mem_of_getElem? hget))
  have hlen : front.length = front'.length :=
    Nat.le_antisymm (hbehind h.symm hlast hback') (hbehind h hlast' hback)
  obtain ⟨hfront, hrest⟩ := List.append_inj h hlen
  exact ⟨hfront, (List.cons.inj hrest).1⟩

/-- A slack is what the size has above the minimum, or none. -/
theorem mem_zip_slacks (h : ∀ s ∈ sizes, min ≤ s)
    (hx : x ∈ (slacks sizes idx min).zip sizes) :
    min ≤ x.2 ∧ (x.1 ≠ 0 → x.1.val + min.val = x.2.val) := by
  obtain ⟨i, hi, rfl⟩ := List.mem_iff_getElem.mp hx
  rw [List.length_zip] at hi
  have hmem : sizes[i] ∈ sizes := List.getElem_mem _
  have hle : min.val ≤ sizes[i].val := h _ hmem
  rw [List.getElem_zip]
  refine ⟨h _ hmem, ?_⟩
  simp only [slacks, List.getElem_mapIdx]
  split
  · exact fun hne => absurd rfl hne
  · intro _
    show sizes[i].val - min.val + min.val = sizes[i].val
    omega

theorem sum_lessShare (hle : take.val ≤ total.val) {xs : List (U16 × U16)}
    (hsize : ∀ x ∈ xs, x.1 ≠ 0 → x.1.val + min.val = x.2.val) :
    ((xs.map (lessShare take total)).map Fin.val).sum +
        floored take.val total.val (xs.map (·.1.val)) =
      ((xs.map Prod.snd).map Fin.val).sum := by
  induction xs with
  | nil => rfl
  | cons x xs ih =>
      obtain ⟨hx, hsize⟩ := List.forall_mem_cons.mp hsize
      have hshare := share_le hle x.1.val
      have hle' : x.1.val ≤ x.2.val := by
        by_cases hzero : x.1 = 0
        · rw [hzero]
          exact Nat.zero_le _
        · have := hx hzero
          omega
      have hrest := ih hsize
      have hless : (lessShare take total x).val =
          x.2.val - take.val * x.1.val / total.val := rfl
      simp only [List.map_cons, List.sum_cons, floored_cons, hless]
      omega

/-- A share leaves a sibling at the minimum or above. -/
theorem min_le_lessShare (hle : take.val ≤ total.val) (hmin : min ≤ x.2)
    (hx : x.1 ≠ 0 → x.1.val + min.val = x.2.val) :
    min ≤ lessShare take total x := by
  have hshare := share_le hle x.1.val
  show min.val ≤ x.2.val - take.val * x.1.val / total.val
  by_cases hzero : x.1 = 0
  · have h0 : x.1.val = 0 := congrArg Fin.val hzero
    rw [h0, Nat.mul_zero, Nat.zero_div]
    exact hmin
  · have := hx hzero
    omega

/-- The sizes before the window itself has grown. -/
theorem given_spec (hmin : ∀ s ∈ sizes, min ≤ s)
    (hsize : sizes[idx]? = some size) {front : List (U16 × U16)}
    (hxs : (slacks sizes idx min).zip sizes = front ++ x :: back)
    (hx : x.1 ≠ 0) (hle : take.val ≤ total.val)
    (hfit : floored take.val total.val (front.map (·.1.val)) ≤ take.val)
    (hrest : take.val - floored take.val total.val (front.map (·.1.val)) ≤
      x.1.val)
    {rest : U16}
    (hval : rest.val = x.2.val - (take.val -
      floored take.val total.val (front.map (·.1.val))))
    {out : List U16}
    (hout : out = front.map (lessShare take total) ++
      rest :: back.map Prod.snd) :
    out.length = sizes.length ∧ (∀ s ∈ out, min ≤ s) ∧
      out[idx]? = some size ∧
      (out.map Fin.val).sum + take.val = (sizes.map Fin.val).sum := by
  have hlen : (slacks sizes idx min).length = sizes.length := by
    rw [slacks, List.length_mapIdx]
  have hsnd : (front ++ x :: back).map Prod.snd = sizes := by
    rw [← hxs, List.map_snd_zip (Nat.le_of_eq hlen.symm)]
  have hall : ∀ y ∈ front ++ x :: back,
      min ≤ y.2 ∧ (y.1 ≠ 0 → y.1.val + min.val = y.2.val) :=
    fun y hy => mem_zip_slacks hmin (hxs ▸ hy)
  obtain ⟨hfront, htail⟩ := List.forall_mem_append.mp hall
  obtain ⟨⟨-, hxsize⟩, hbacks⟩ := List.forall_mem_cons.mp htail
  have hxsize := hxsize hx
  rw [List.map_append, List.map_cons] at hsnd
  refine ⟨?_, ?_, ?_, ?_⟩
  · rw [hout, ← hsnd]
    simp
  · rw [hout]
    refine List.forall_mem_append.mpr ⟨?_, List.forall_mem_cons.mpr ⟨?_, ?_⟩⟩
    · intro s hs
      obtain ⟨y, hy, rfl⟩ := List.mem_map.mp hs
      exact min_le_lessShare hle (hfront y hy).1 (hfront y hy).2
    · show min.val ≤ rest.val
      omega
    · intro s hs
      obtain ⟨y, hy, rfl⟩ := List.mem_map.mp hs
      exact (hbacks y hy).1
  · have hget : (front ++ x :: back)[idx]? = some (0, size) := by
      rw [← hxs, List.getElem?_zip_eq_some]
      refine ⟨?_, hsize⟩
      rw [slacks, List.getElem?_mapIdx, hsize]
      exact congrArg some (if_pos rfl)
    rw [hout]
    rcases Nat.lt_trichotomy idx front.length with hlt | heq | hgt
    · rw [List.getElem?_append_left hlt] at hget
      rw [List.getElem?_append_left (by simpa using hlt), List.getElem?_map,
        hget]
      refine congrArg some (Fin.ext ?_)
      show size.val - take.val * 0 / total.val = size.val
      rw [Nat.mul_zero, Nat.zero_div, Nat.sub_zero]
    · rw [heq] at hget
      have hx0 : x = (0, size) := by simpa using hget
      exact absurd (congrArg Prod.fst hx0) hx
    · rw [List.getElem?_append_right (Nat.le_of_lt hgt),
        show idx - front.length = idx - front.length - 1 + 1 by omega,
        List.getElem?_cons_succ] at hget
      rw [List.getElem?_append_right (by simpa using Nat.le_of_lt hgt),
        List.length_map,
        show idx - front.length = idx - front.length - 1 + 1 by omega,
        List.getElem?_cons_succ, List.getElem?_map, hget]
      rfl
  · have hsum := sum_lessShare hle fun y hy => (hfront y hy).2
    rw [hout, ← hsnd]
    simp only [List.map_append, List.map_cons, List.sum_append,
      List.sum_cons]
    omega

theorem roundsOff_zero (hsize : sizes[idx]? = some size)
    (h : taking sizes idx want min size = 0) :
    RoundsOff sizes idx want min := by
  intro size' front last back hsize' _ _ _
  obtain rfl := Option.some.inj (hsize.symm.trans hsize')
  have hres : ∀ weights : List Nat,
      residues 0 (room sizes idx min) weights = 0 := by
    intro weights
    induction weights with
    | nil => rfl
    | cons w weights ih =>
        rw [residues_cons, ih, Nat.zero_mul, Nat.zero_mod]
  dsimp only
  rw [taking] at h
  rw [h, hres]
  exact Nat.zero_le _

theorem reachable_le (h : taking sizes idx want min size = 0) :
    reachable sizes idx want min size ≤ size.val := by
  rw [reachable]
  rcases Nat.min_eq_zero_iff.mp h with hwant | hroom
  · exact Nat.le_trans (Nat.min_le_left _ _) (by omega)
  · exact Nat.le_trans (Nat.min_le_right _ _) (by omega)

/-- The law where there is something to give. -/
theorem donors_law (hmin : ∀ s ∈ sizes, min ≤ s)
    (hsize : sizes[idx]? = some size) (hroom : room sizes idx min < 65536)
    (hzero : taking sizes idx want min size ≠ 0)
    (hfits : (sizes.map Fin.val).sum < 65536)
    (htake : take.val = taking sizes idx want min size) :
    (∃ r, (do
        let (out, taken) ← giveSlack take ⟨room sizes idx min, hroom⟩ min 0
          ((slacks sizes idx min).zip sizes)
        let size ← size.checkedAdd taken
        return some (out.set idx size) : Result (Option (List U16))) =
          .ok r ∧ Grown sizes idx want min r) ↔
      (sizes.map Fin.val).sum < 65536 ∧ RoundsOff sizes idx want min := by
  have hpos : 0 < room sizes idx min :=
    Nat.pos_of_ne_zero fun h => hzero (by
      rw [taking, h]
      exact Nat.min_zero _)
  have hle : take.val ≤ room sizes idx min := htake ▸ Nat.min_le_right _ _
  have hlen : (slacks sizes idx min).length = sizes.length := by
    rw [slacks, List.length_mapIdx]
  have hfst : ((slacks sizes idx min).zip sizes).map Prod.fst =
      slacks sizes idx min := List.map_fst_zip (Nat.le_of_eq hlen)
  have hvals : ((slacks sizes idx min).zip sizes).map (·.1.val) =
      (slacks sizes idx min).map Fin.val := by
    rw [← hfst, List.map_map, hfst]
    rfl
  obtain ⟨front, x, back, hxs, hx, hback⟩ :=
    @exists_last ((slacks sizes idx min).zip sizes)
      (hvals ▸ Nat.ne_of_gt hpos)
  rw [hxs] at hfst hvals
  rw [List.map_append, List.map_cons] at hfst
  have hall : ∀ y ∈ front ++ x :: back,
      min ≤ y.2 ∧ (y.1 ≠ 0 → y.1.val + min.val = y.2.val) :=
    fun y hy => mem_zip_slacks hmin (hxs ▸ hy)
  obtain ⟨hfront, htail⟩ := List.forall_mem_append.mp hall
  have hxsize := (List.forall_mem_cons.mp htail).1.2 hx
  have hsum : (front.map (·.1.val)).sum + x.1.val = room sizes idx min := by
    have hzeros : (back.map (·.1.val)).sum = 0 := by
      refine List.sum_eq_zero fun v hv => ?_
      obtain ⟨y, hy, rfl⟩ := List.mem_map.mp hv
      rw [hback y hy]
      rfl
    rw [room, ← hvals, List.map_append, List.map_cons, List.sum_append,
      List.sum_cons, hzeros, Nat.add_zero]
  have hfit := @floored_le take.val _ _ (Nat.le.intro hsum) hpos
  have hrest := rest_le_iff hsum hpos hle
  have hrounds : RoundsOff sizes idx want min ↔
      take.val - floored take.val (room sizes idx min)
        (front.map (·.1.val)) ≤ x.1.val := by
    rw [hrest, htake]
    have hfrontVals : (front.map Prod.fst).map Fin.val =
        front.map (·.1.val) := by
      rw [List.map_map]
      rfl
    constructor
    · intro h
      have hone := h size _ _ _ hsize hfst.symm hx (by
        intro s hs
        obtain ⟨y, hy, rfl⟩ := List.mem_map.mp hs
        exact hback y hy)
      rwa [hfrontVals] at hone
    · intro h size' front' last' back' hsize' heq hlast' hback'
      obtain rfl := Option.some.inj (hsize.symm.trans hsize')
      obtain ⟨rfl, rfl⟩ := last_unique (hfst.trans heq) hx hlast' (by
        intro s hs
        obtain ⟨y, hy, rfl⟩ := List.mem_map.mp hs
        exact hback y hy) hback'
      rw [hfrontVals]
      exact h
  have hspec := @giveSlack_spec take ⟨room sizes idx min, hroom⟩ min hle
    front back x.1 x.2 (fun y hy => (hfront y hy).2) hx hxsize hback hfit
  rw [hxs, hrounds]
  constructor
  · rintro ⟨r, hr, hgrown⟩
    refine ⟨hfits, ?_⟩
    by_cases hleft : take.val - floored take.val (room sizes idx min)
        (front.map (·.1.val)) ≤ x.2.val
    · rw [hspec, if_pos hleft, ok_bind] at hr
      obtain ⟨size', -, hr⟩ := bind_eq_ok.mp hr
      obtain rfl := Except.ok.inj hr
      have hne : idx ≠ front.length := by
        intro heq
        have hget : (slacks sizes idx min)[idx]? = some x.1 := by
          rw [← hfst, heq]
          simp
        rw [slacks, List.getElem?_mapIdx, hsize] at hget
        exact hx ((Option.some.inj hget).symm.trans (if_pos rfl))
      have hfloor : min.val ≤ x.2.val - (take.val - floored take.val
          (room sizes idx min) (front.map (·.1.val))) := by
        refine hgrown.floor front.length
          ⟨_, Nat.lt_of_le_of_lt (Nat.sub_le _ _) x.2.isLt⟩ (Ne.symm hne) ?_
        rw [List.getElem?_set_ne hne, List.getElem?_append_right (by simp),
          List.length_map, Nat.sub_self]
        rfl
      omega
    · rw [hspec, if_neg hleft] at hr
      cases hr
  · rintro ⟨-, hgive⟩
    obtain ⟨out, hgiven, hlength, hfloor, hidx, htotal⟩ : ∃ out,
        giveSlack take ⟨room sizes idx min, hroom⟩ min 0
          (front ++ x :: back) = .ok (out, take) ∧
        out.length = sizes.length ∧ (∀ s ∈ out, min ≤ s) ∧
        out[idx]? = some size ∧
        (out.map Fin.val).sum + take.val = (sizes.map Fin.val).sum := by
      have hle' : x.1.val ≤ x.2.val := by omega
      refine ⟨_, hspec.trans (if_pos (Nat.le_trans hgive hle')), ?_⟩
      exact given_spec hmin hsize hxs hx hle hfit hgive rfl rfl
    have hreach : size.val + take.val =
        reachable sizes idx want min size := by
      rw [htake, taking, reachable]
      refine add_min_sub (Nat.le_of_lt (Nat.lt_of_sub_ne_zero fun h => ?_))
      rw [taking, h] at hzero
      exact hzero (Nat.zero_min _)
    have hmax : size.val + take.val < 65536 := by
      rw [hreach]
      exact Nat.lt_of_le_of_lt (Nat.min_le_left _ _) want.isLt
    have hadd : size.checkedAdd take = .ok ⟨size.val + take.val, hmax⟩ :=
      U16.checkedAdd_eq_ok.mpr rfl
    refine ⟨some (out.set idx ⟨size.val + take.val, hmax⟩), ?_, ?_⟩
    · rw [hgiven]
      simp only [ok_bind, hadd]
      rfl
    refine ⟨?_, ?_, ?_, ?_⟩
    · rw [List.length_set, hlength]
    · have hget : (out.map Fin.val)[idx]? = some size.val := by
        rw [List.getElem?_map, hidx]
        rfl
      have hset := sum_set (b := size.val + take.val) hget
      rw [List.map_set]
      show ((out.map Fin.val).set idx (size.val + take.val)).sum = _
      omega
    · intro j s hj hs
      rw [List.getElem?_set_ne (Ne.symm hj)] at hs
      exact hfloor s (List.mem_of_getElem? hs)
    · intro s s' hs hs'
      obtain rfl := Option.some.inj (hsize.symm.trans hs)
      rw [List.getElem?_set_self (by
        rw [hlength]
        exact (List.getElem?_eq_some_iff.mp hsize).1)] at hs'
      obtain rfl := Option.some.inj hs'
      refine ⟨Nat.le_add_right _ _, ?_, hreach⟩
      show size.val + take.val ≤ want.val
      rw [hreach]
      exact Nat.min_le_left _ _

/-- No sibling gets too small, and the window as big as it can, when the
residues of the rounding fit into what the last donor has left, and the
sizes add up to a `u16`. -/
theorem grow_to_law {sizes : List U16} {idx : Nat} {min : U16} (want : U16)
    (hidx : idx < sizes.length) (hmin : ∀ s ∈ sizes, min ≤ s) :
    (∃ r, growTo sizes idx want min = .ok r ∧
        Grown sizes idx want min r) ↔
      (sizes.map Fin.val).sum < 65536 ∧ RoundsOff sizes idx want min := by
  obtain ⟨size, hsize⟩ : ∃ size, sizes[idx]? = some size :=
    ⟨sizes[idx], List.getElem?_eq_getElem hidx⟩
  by_cases hfits : (sizes.map Fin.val).sum < 65536
  · have hsplit : sizes = sizes.take idx ++ size :: sizes.drop (idx + 1) := by
      obtain ⟨_, hget⟩ := List.getElem?_eq_some_iff.mp hsize
      rw [← hget, List.getElem_cons_drop, List.take_append_drop]
    have hlength : (sizes.take idx).length = idx :=
      List.length_take_of_le (Nat.le_of_lt hidx)
    have hroom : room sizes idx min < 65536 := by
      have := sum_eq_room (hsplit ▸ hmin)
      rw [← hsplit, hlength] at this
      omega
    have heq := @growTo_eq min _ _ size want (hsplit ▸ hmin)
      ⟨taking sizes idx want min size,
        Nat.lt_of_le_of_lt (Nat.min_le_right _ _) hroom⟩
      ⟨room sizes idx min, hroom⟩
      (by rw [← hsplit]; exact hfits) (by rw [← hsplit, hlength])
      (by rw [← hsplit, hlength])
    rw [← hsplit, hlength] at heq
    rw [heq]
    by_cases hzero : taking sizes idx want min size = 0
    · rw [if_pos (Fin.ext hzero)]
      refine ⟨fun _ => ⟨hfits, roundsOff_zero hsize hzero⟩, fun _ => ?_⟩
      refine ⟨none, rfl, fun size' hsize' => ?_⟩
      obtain rfl := Option.some.inj (hsize.symm.trans hsize')
      exact reachable_le hzero
    · rw [if_neg fun h => hzero (congrArg Fin.val h)]
      exact donors_law hmin hsize hroom hzero hfits rfl
  · refine ⟨?_, fun h => absurd h.1 hfits⟩
    rintro ⟨r, hr, -⟩
    obtain ⟨total, htotal, -⟩ := bind_eq_ok.mp hr
    have := U16.sum_eq_ok.mp htotal
    have := total.isLt
    omega

/-- Two cells taken from slacks of one cell each are all charged to the
last sibling. -/
theorem not_grow_to_law_residues :
    ¬ ∀ (sizes : List U16) (idx : Nat) (want min : U16),
      idx < sizes.length → (∀ s ∈ sizes, min ≤ s) →
      ∃ r, growTo sizes idx want min = .ok r ∧
        Grown sizes idx want min r := by
  intro h
  obtain ⟨r, hr, -⟩ := h [1, 1, 1, 5] 3 7 0 (by decide)
    fun _ _ => Nat.zero_le _
  have hpanics : growTo [1, 1, 1, 5] 3 7 0 = .error .underflow := by
    decide
  rw [hpanics] at hr
  cases hr

/-- Three siblings of ten cells, and the middle one gets twenty. -/
theorem grow_to_law_tens :
    ∃ r, growTo [10, 10, 10] 1 20 2 = .ok r ∧
      Grown [10, 10, 10] 1 20 2 r := by
  have hmin : ∀ s ∈ ([10, 10, 10] : List U16), 2 ≤ s := by
    intro s hs
    obtain rfl : s = 10 := by simpa using hs
    decide
  refine (grow_to_law 20 (by decide) hmin).mpr ⟨by decide, ?_⟩
  intro size front last back hsize heq hlast hback
  have hslacks : slacks [10, 10, 10] 1 2 = [8, 0] ++ 8 :: [] := by
    decide
  obtain ⟨rfl, rfl⟩ := last_unique (hslacks.symm.trans heq) (by decide)
    hlast (List.forall_mem_nil _) hback
  obtain rfl : (10 : U16) = size := Option.some.inj hsize
  decide

end Tree

end Zmax
