/-
Finite maps as association lists, with a fallible map over the values.

`insert` replaces in place, so an insert is undone by inserting the old
value again (`insert_insert`, `insert_get`), and nothing but the key's
own entry moves. The list is the observable content of the map; no
operation here depends on its order.
-/
import Mathlib.Init

/-- One entry per key that is present. -/
abbrev Table (κ α : Type*) := List (κ × α)

namespace Table

variable {κ α β ε : Type*} [DecidableEq κ]

/-- The value of a key. -/
def get : Table κ α → κ → Option α
  | [], _ => none
  | (k', v) :: rest, k => if k = k' then some v else get rest k

/-- Set the value of a key. -/
def insert : Table κ α → κ → α → Table κ α
  | [], k, v => [(k, v)]
  | (k', v') :: rest, k, v =>
      if k = k' then (k, v) :: rest else (k', v') :: insert rest k v

/-- Take a key away. -/
def erase : Table κ α → κ → Table κ α
  | [], _ => []
  | (k', v') :: rest, k =>
      if k = k' then erase rest k else (k', v') :: erase rest k

/-- Map the values, as long as the function succeeds on them. -/
def mapValues (f : α → Except ε β) : Table κ α → Except ε (Table κ β)
  | [] => .ok []
  | (k, v) :: rest =>
      match f v, mapValues f rest with
      | .ok w, .ok rest => .ok ((k, w) :: rest)
      | .error e, _ => .error e
      | _, .error e => .error e

/-- Every value satisfies `P`. -/
def All (P : α → Prop) (t : Table κ α) : Prop := ∀ p ∈ t, P p.2

variable {t : Table κ α} {k k' : κ} {v w : α}

attribute [grind =] get insert erase mapValues

@[simp] theorem get_insert_self : (t.insert k v).get k = some v := by
  induction t with
  | nil => exact if_pos rfl
  | cons p rest ih =>
      rw [insert]
      split
      · rw [get, if_pos rfl]
      · next hne =>
          rw [get, if_neg hne]
          exact ih

theorem get_insert_ne (h : k' ≠ k) : (t.insert k v).get k' = t.get k' := by
  induction t with
  | nil => exact if_neg h
  | cons p rest ih =>
      rw [insert]
      split
      · next heq =>
          rw [get, get, if_neg h, if_neg (heq ▸ h)]
      · rw [get, get, ih]

/-- An insert takes no key away. -/
theorem isSome_get_insert (h : (t.get k').isSome) :
    ((t.insert k v).get k').isSome := by
  by_cases hk : k' = k
  · rw [hk, get_insert_self]
    rfl
  · rw [get_insert_ne hk]
    exact h

/-- A value that is found is there. -/
theorem mem_of_get (h : t.get k = some v) : (k, v) ∈ t := by
  induction t with
  | nil => cases h
  | cons p rest ih =>
      rw [get] at h
      split at h
      · next heq =>
          injection h with h
          rw [heq, ← h]
          exact List.mem_cons_self
      · exact List.mem_cons_of_mem _ (ih h)

/-- Inserting what is there changes nothing. -/
theorem insert_get (h : t.get k = some v) : t.insert k v = t := by
  induction t with
  | nil => cases h
  | cons p rest ih =>
      rw [get] at h
      rw [insert]
      split at h
      · next heq =>
          injection h with h
          rw [if_pos heq, heq, ← h]
      · next hne => rw [if_neg hne, ih h]

/-- The last of two inserts stands. -/
theorem insert_insert : (t.insert k v).insert k w = t.insert k w := by
  induction t with
  | nil => exact if_pos rfl
  | cons p rest ih =>
      rw [insert, insert]
      split
      · rw [insert, if_pos rfl]
      · next hne => rw [insert, if_neg hne, ih]

@[simp] theorem get_erase_self : (t.erase k).get k = none := by
  induction t with
  | nil => rfl
  | cons p rest ih =>
      rw [erase]
      split
      · exact ih
      · next hne =>
          rw [get, if_neg hne]
          exact ih

theorem get_erase_ne (h : k' ≠ k) : (t.erase k).get k' = t.get k' := by
  induction t with
  | nil => rfl
  | cons p rest ih =>
      rw [erase]
      split
      · next heq =>
          rw [get, if_neg (heq ▸ h)]
          exact ih
      · rw [get, get, ih]

/-- Keys behind an insert are the ones before it, and its own. -/
theorem mem_keys_insert (h : k' ∈ (t.insert k v).map Prod.fst) :
    k' = k ∨ k' ∈ t.map Prod.fst := by
  induction t with
  | nil => exact .inl (List.mem_singleton.mp h)
  | cons p rest ih =>
      rw [insert] at h
      split at h
      · next heq =>
          rcases List.mem_cons.mp h with h | h
          · exact .inl h
          · exact .inr (List.mem_cons_of_mem _ h)
      · rcases List.mem_cons.mp h with h | h
        · exact .inr (h ▸ List.mem_cons_self)
        · exact (ih h).imp_right (List.mem_cons_of_mem _)

theorem mem_keys_erase (h : k' ∈ (t.erase k).map Prod.fst) :
    k' ∈ t.map Prod.fst := by
  induction t with
  | nil => exact h
  | cons p rest ih =>
      rw [erase] at h
      split at h
      · exact List.mem_cons_of_mem _ (ih h)
      · rcases List.mem_cons.mp h with h | h
        · exact h ▸ List.mem_cons_self
        · exact List.mem_cons_of_mem _ (ih h)

theorem nodup_insert (h : (t.map Prod.fst).Nodup) :
    ((t.insert k v).map Prod.fst).Nodup := by
  induction t with
  | nil => exact List.nodup_cons.mpr ⟨List.not_mem_nil, List.nodup_nil⟩
  | cons p rest ih =>
      obtain ⟨hp, hrest⟩ := List.nodup_cons.mp h
      rw [insert]
      split
      · next heq => exact List.nodup_cons.mpr ⟨heq ▸ hp, hrest⟩
      · next hne =>
          refine List.nodup_cons.mpr ⟨fun hmem => ?_, ih hrest⟩
          rcases mem_keys_insert hmem with heq | hmem
          · exact hne heq.symm
          · exact hp hmem

theorem nodup_erase (h : (t.map Prod.fst).Nodup) :
    ((t.erase k).map Prod.fst).Nodup := by
  induction t with
  | nil => exact h
  | cons p rest ih =>
      obtain ⟨hp, hrest⟩ := List.nodup_cons.mp h
      rw [erase]
      split
      · exact ih hrest
      · refine List.nodup_cons.mpr ⟨fun hmem => ?_, ih hrest⟩
        exact hp (mem_keys_erase hmem)

/-- The entries of a key, where there is one for each. -/
theorem filter_key (h : (t.map Prod.fst).Nodup) :
    t.filter (·.1 = k) = ((t.get k).map (k, ·)).toList := by
  induction t with
  | nil => rfl
  | cons p rest ih =>
      obtain ⟨hp, hrest⟩ := List.nodup_cons.mp h
      by_cases heq : k = p.1
      · have hnone : rest.filter (·.1 = k) = [] := by
          refine List.filter_eq_nil_iff.mpr fun q hq hqk => ?_
          refine hp (List.mem_map.mpr ⟨q, hq, ?_⟩)
          exact (of_decide_eq_true hqk).trans heq
        rw [List.filter_cons, if_pos (decide_eq_true heq.symm), hnone, get,
          if_pos heq, heq]
        rfl
      · rw [List.filter_cons, if_neg (by simpa using Ne.symm heq), ih hrest,
          get, if_neg heq]

theorem All.insert {P : α → Prop} (h : t.All P) (hv : P v) :
    (t.insert k v).All P := by
  induction t with
  | nil =>
      intro p hp
      rw [Table.insert, List.mem_singleton] at hp
      rw [hp]
      exact hv
  | cons q rest ih =>
      obtain ⟨hq, hrest⟩ := List.forall_mem_cons.mp h
      rw [Table.insert]
      split
      · exact List.forall_mem_cons.mpr ⟨hv, hrest⟩
      · exact List.forall_mem_cons.mpr ⟨hq, ih hrest⟩

theorem All.get {P : α → Prop} (h : t.All P) (hv : t.get k = some v) :
    P v := h _ (mem_of_get hv)

omit [DecidableEq κ] in
/-- What holds of every image of a value holds after mapping. -/
theorem All.mapValues {f : α → Except ε β} {t' : Table κ β}
    {P : α → Prop} {Q : β → Prop} (h : t.All P)
    (hf : ∀ v w, P v → f v = .ok w → Q w)
    (hx : t.mapValues f = .ok t') : t'.All Q := by
  induction t generalizing t' with
  | nil =>
      injection hx with hx
      subst hx
      intro p hp
      cases hp
  | cons q rest ih =>
      obtain ⟨hq, hrest⟩ := List.forall_mem_cons.mp h
      rw [Table.mapValues] at hx
      split at hx
      · next w rest' hw hr =>
          injection hx with hx
          subst hx
          exact List.forall_mem_cons.mpr ⟨hf _ _ hq hw, ih hrest hr⟩
      · cases hx
      · cases hx

omit [DecidableEq κ] in
/-- Where every value can be mapped, the table can. -/
theorem All.mapValues_ok {f : α → Except ε β} {P : α → Prop} (h : t.All P)
    (hf : ∀ v, P v → ∃ w, f v = .ok w) : ∃ t', t.mapValues f = .ok t' := by
  induction t with
  | nil => exact ⟨[], rfl⟩
  | cons q rest ih =>
      obtain ⟨hq, hrest⟩ := List.forall_mem_cons.mp h
      obtain ⟨w, hw⟩ := hf q.2 hq
      obtain ⟨rest', hrest'⟩ := ih hrest
      refine ⟨(q.1, w) :: rest', ?_⟩
      rw [Table.mapValues, hw, hrest']

/-- Mapping keeps the keys. -/
theorem isSome_get_mapValues {f : α → Except ε β} {t' : Table κ β}
    (hx : t.mapValues f = .ok t') (k : κ) :
    (t'.get k).isSome = (t.get k).isSome := by
  induction t generalizing t' with
  | nil =>
      injection hx with hx
      rw [← hx]
      rfl
  | cons q rest ih =>
      rw [mapValues] at hx
      split at hx
      · next w rest' hw hr =>
          injection hx with hx
          subst hx
          rw [get, get]
          split
          · rfl
          · exact ih hr
      · cases hx
      · cases hx

end Table
