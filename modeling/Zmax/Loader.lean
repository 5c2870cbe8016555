/-
zmax-loader/src/lib.rs, `merge_toml_values`: the layers of the
configuration.

Two values are at the same place if the same keys, and in arrays the same
names, lead to them. Tables and arrays are both lists laid over one another,
by key and by name; what is at a place in both is merged one level deeper,
and so the grouping of three layers does not matter (`merge_assoc`).
-/
import Zmax.Lib.Overlay

namespace Zmax.Toml

open Overlay

/-- A value. Numbers, booleans and dates are `α`. A table is in the order in
which its keys were inserted. -/
inductive Value (α : Type) where
  | string (s : List Char)
  | scalar (x : α)
  | array (items : List (Value α))
  | table (entries : List (List Char × Value α))

variable {α : Type}

/-- The name of an entry is its key. -/
def key (entry : List Char × Value α) : Option (List Char) := some entry.1

def Value.get (v : Value α) (k : List Char) : Option (Value α) :=
  match v with
  | .table entries => (entries.find? fun e => key e = some k).map Prod.snd
  | _ => none

def Value.asStr : Value α → Option (List Char)
  | .string s => some s
  | _ => none

def getName (v : Value α) : Option (List Char) :=
  (v.get "name".toList).bind Value.asStr

/-- The items and the entries of the right go onto the left one by one. An
item, or a value, of the left that has the same name is removed and comes
back merged. -/
def mergeTomlValues (left right : Value α) (mergeDepth : Nat) : Value α :=
  match left, right, mergeDepth with
  | .array leftItems, .array rightItems, depth + 1 =>
      .array (rightItems.foldl (push getName fun lvalue rvalue =>
        mergeTomlValues lvalue rvalue depth) leftItems)
  | .array _, .array rightItems, 0 => .array rightItems
  | .table leftMap, .table rightMap, depth + 1 =>
      .table (rightMap.foldl (push key fun (_, lvalue) (rname, rvalue) =>
        (rname, mergeTomlValues lvalue rvalue depth)) leftMap)
  | .table _, .table rightMap, 0 => .table rightMap
  | _, value, _ => value

-- == places

/-- From a table to the value of a key, or from an array to the item of a
name. -/
inductive Step where
  | key (k : List Char)
  | item (name : List Char)

def Value.child (v : Value α) : Step → Option (Value α)
  | .key k => v.get k
  | .item n =>
      match v with
      | .array items => items.find? fun i => getName i = some n
      | _ => none

/-- The value at a place. -/
def Value.at (v : Value α) : List Step → Option (Value α)
  | [] => some v
  | s :: rest => (v.child s).bind (·.at rest)

/-- Tables go with tables, arrays with arrays and the rest with the rest. -/
def SameShape : Value α → Value α → Prop
  | .table _, .table _ | .array _, .array _ => True
  | .table _, _ | _, .table _ | .array _, _ | _, .array _ => False
  | _, _ => True

def Compatible (a b : Value α) : Prop :=
  ∀ p x y, a.at p = some x → b.at p = some y → SameShape x y

/-- The keys of a table, as of any map, and the names in an array are
distinct. -/
def Named : Value α → Prop
  | .table entries => Distinct key entries
  | .array items => Distinct getName items
  | _ => True

/-- At every place keys and names are distinct. -/
def Proper (a : Value α) : Prop := ∀ p x, a.at p = some x → Named x

/-- What is in one of the two comes out as it is, and what is in both comes
out related by `R`. -/
def Joined (R : Value α → Value α → Value α → Prop) :
    Option (Value α) → Option (Value α) → Option (Value α) → Prop
  | some x, some y, v => ∃ z, v = some z ∧ R x y z
  | some x, none, v => v = some x
  | none, y, v => v = y

/-- The last value is the first two merged: down to the depth a table has
the keys of both, an array one item for each name of either and all items
without one; below it, and elsewhere, the right value replaces the left. -/
def Unions : Nat → Value α → Value α → Value α → Prop
  | depth + 1, .table l, .table r, v => ∃ entries, v = .table entries ∧
      Distinct key entries ∧
      (∀ k, k ∈ entries.filterMap key ↔
        k ∈ l.filterMap key ∨ k ∈ r.filterMap key) ∧
      ∀ k, Joined (Unions depth) ((Value.table l).get k)
        ((Value.table r).get k) (v.get k)
  | depth + 1, .array l, .array r, v => ∃ items, v = .array items ∧
      Distinct getName items ∧
      (∀ n, n ∈ items.filterMap getName ↔
        n ∈ l.filterMap getName ∨ n ∈ r.filterMap getName) ∧
      items.filter (getName · = none) =
        l.filter (getName · = none) ++ r.filter (getName · = none) ∧
      ∀ n, Joined (Unions depth) ((Value.array l).child (.item n))
        ((Value.array r).child (.item n)) (v.child (.item n))
  | _, _, r, v => v = r

variable {a b c l r v x y : Value α} {depth : Nat}
  {entries : List (List Char × Value α)} {items : List (Value α)}

-- == merging

theorem mergeTomlValues_zero (l r : Value α) : mergeTomlValues l r 0 = r := by
  cases l <;> cases r <;> rfl

theorem merge_string (t : List Char) (r : Value α) (depth : Nat) :
    mergeTomlValues (.string t) r depth = r := by
  cases depth <;> cases r <;> rfl

/-- Two entries are merged by their values. -/
def mergeEntry (depth : Nat) (l r : List Char × Value α) :
    List Char × Value α :=
  (r.1, mergeTomlValues l.2 r.2 depth)

theorem merge_tables (l r : List (List Char × Value α)) (depth : Nat) :
    mergeTomlValues (.table l) (.table r) (depth + 1) =
      .table (merge key (mergeEntry depth) l r) := by
  rfl

theorem merge_arrays (l r : List (Value α)) (depth : Nat) :
    mergeTomlValues (.array l) (.array r) (depth + 1) =
      .array (merge getName (mergeTomlValues · · depth) l r) := by
  rfl

theorem joins_mergeEntry (depth : Nat) :
    Joins (α := List Char × Value α) key (mergeEntry depth) fun _ => True where
  keeps := fun _ _ _ _ => trivial
  name_join := fun _ _ _ _ => rfl

theorem get_table (entries : List (List Char × Value α)) (k : List Char)
    (v : Value α) :
    (Value.table entries).get k =
      (partner key entries (k, v)).map Prod.snd :=
  rfl

theorem child_array (items : List (Value α)) {n : List Char}
    (h : getName v = some n) :
    (Value.array items).child (.item n) = partner getName items v := by
  unfold partner
  rw [h]
  rfl

/-- A value that has a name is a table. -/
theorem exists_table (h : getName v ≠ none) :
    ∃ entries, v = .table entries := by
  cases v with
  | table entries => exact ⟨entries, rfl⟩
  | string s => exact absurd rfl h
  | scalar x => exact absurd rfl h
  | array items => exact absurd rfl h

/-- What a merged table has at a key. -/
theorem joined_get {l r : List (List Char × Value α)} (hl : Distinct key l)
    (hr : Distinct key r) (depth : Nat) (k : List Char) :
    Joined (fun x y z => z = mergeTomlValues x y depth)
      ((Value.table l).get k) ((Value.table r).get k)
      ((mergeTomlValues (.table l) (.table r) (depth + 1)).get k) := by
  have hpartner := partner_merge (x := (k, Value.table l))
    (joins_mergeEntry depth) (fun _ _ => trivial) hl hr fun _ _ => trivial
  rw [merge_tables, get_table l k (.table l), get_table r k (.table l),
    get_table _ k (.table l), hpartner]
  cases hr : partner key r (k, Value.table l) with
  | none =>
      rw [Option.map_none, Option.map_none, Option.none_or]
      cases partner key l (k, Value.table l) <;> rfl
  | some y =>
      have hname := (partner_eq_some hr).2.1
      rw [Option.map_some, Option.map_some, Option.some_or, laid,
        partner_congr hname]
      cases partner key l (k, Value.table l) with
      | none => rfl
      | some x => exact ⟨_, rfl, rfl⟩

/-- The keys of a table are distinct. -/
def Keyed (v : Value α) : Prop :=
  ∀ entries, v = .table entries → Distinct key entries

theorem Named.keyed (h : Named v) : Keyed v := by
  rintro entries rfl
  exact h

theorem keyed_merge (hl : Keyed l) (hr : Keyed r) :
    Keyed (mergeTomlValues l r depth) := by
  cases depth with
  | zero =>
      rw [mergeTomlValues_zero]
      exact hr
  | succ depth =>
      cases r with
      | table rs =>
          cases l with
          | table ls =>
              rw [merge_tables]
              rintro entries h
              cases h
              exact distinct_merge (joins_mergeEntry depth)
                (fun _ _ => trivial) (hl ls rfl) (hr rs rfl)
                fun _ _ => trivial
          | array ls => exact hr
          | string t => exact hr
          | scalar x => exact hr
      | array rs =>
          cases l with
          | array ls =>
              rw [merge_arrays]
              nofun
          | table ls => exact hr
          | string t => exact hr
          | scalar x => exact hr
      | string t => cases l <;> exact hr
      | scalar x => cases l <;> exact hr

/-- Merged items keep their name: it is merged itself, one level deeper. -/
theorem getName_merge (hl : Keyed l) (hr : Keyed r)
    (h : getName l = getName r) (hn : getName l ≠ none) :
    getName (mergeTomlValues l r depth) = getName r := by
  cases depth with
  | zero => rw [mergeTomlValues_zero]
  | succ depth =>
      obtain ⟨ls, rfl⟩ := exists_table hn
      obtain ⟨rs, rfl⟩ := exists_table (h ▸ hn)
      have hjoined := joined_get (hl ls rfl) (hr rs rfl) depth "name".toList
      unfold getName at h hn ⊢
      cases hx : (Value.table ls).get "name".toList with
      | none =>
          rw [hx] at hn
          exact absurd rfl hn
      | some x =>
          cases hy : (Value.table rs).get "name".toList with
          | none =>
              rw [h, hy] at hn
              exact absurd rfl hn
          | some y =>
              rw [hx, hy] at hjoined
              obtain ⟨z, hz, rfl⟩ := hjoined
              rw [hz, Option.bind_some, Option.bind_some]
              rw [hx, hy, Option.bind_some, Option.bind_some] at h
              rw [hx, Option.bind_some] at hn
              cases x with
              | string t =>
                  cases y with
                  | string u => rw [merge_string]
                  | scalar x => cases h
                  | array items => cases h
                  | table entries => cases h
              | scalar x => exact absurd rfl hn
              | array items => exact absurd rfl hn
              | table entries => exact absurd rfl hn

theorem joins_merge_items (depth : Nat) :
    Joins (α := Value α) getName (mergeTomlValues · · depth)
      fun v => getName v ≠ none → Keyed v where
  keeps := fun hl hr h hn _ => keyed_merge (hl hn) (hr (h ▸ hn))
  name_join := fun hl hr h hn => getName_merge (hl hn) (hr (h ▸ hn)) h hn

/-- What a merged array has at a name. -/
theorem joined_item {l r : List (Value α)} (hl : Distinct getName l)
    (hr : Distinct getName r) (hkl : ∀ i ∈ l, getName i ≠ none → Keyed i)
    (hkr : ∀ i ∈ r, getName i ≠ none → Keyed i) (depth : Nat) (n : List Char) :
    Joined (fun x y z => z = mergeTomlValues x y depth)
      ((Value.array l).child (.item n)) ((Value.array r).child (.item n))
      ((mergeTomlValues (.array l) (.array r) (depth + 1)).child
        (.item n)) := by
  have hname : getName (.table [("name".toList, .string n)] : Value α) =
      some n := rfl
  have hpartner := partner_merge (x := .table [("name".toList, .string n)])
    (joins_merge_items depth) hkl hl hr hkr
  rw [merge_arrays, child_array l hname, child_array r hname,
    child_array _ hname, hpartner]
  cases hr : partner getName r (.table [("name".toList, .string n)]) with
  | none =>
      rw [Option.map_none, Option.none_or]
      cases partner getName l (.table [("name".toList, .string n)]) <;> rfl
  | some y =>
      rw [Option.map_some, Option.some_or, laid,
        partner_congr (partner_eq_some hr).2.1]
      cases partner getName l (.table [("name".toList, .string n)]) with
      | none => rfl
      | some x => exact ⟨_, rfl, rfl⟩

-- == places

theorem Proper.named (h : Proper v) : Named v := h [] v rfl

theorem Proper.child {s : Step} (h : Proper v) (hs : v.child s = some x) :
    Proper x :=
  fun p y hy => h (s :: p) y (by rw [Value.at, hs]; exact hy)

theorem Compatible.shape (h : Compatible a b) : SameShape a b :=
  h [] a b rfl rfl

theorem Compatible.child {s : Step} (h : Compatible a b)
    (ha : a.child s = some x) (hb : b.child s = some y) : Compatible x y :=
  fun p x' y' hx hy => h (s :: p) x' y' (by rw [Value.at, ha]; exact hx)
    (by rw [Value.at, hb]; exact hy)

/-- An entry of a table is at its key. -/
theorem child_of_entry {e : List Char × Value α} (hd : Distinct key entries)
    (he : e ∈ entries) :
    (Value.table entries).child (.key e.1) = some e.2 := by
  have hpartner : partner key entries e = some e :=
    partner_of_mem hd he rfl nofun
  have hget := get_table entries e.1 e.2
  rw [Prod.eta, hpartner] at hget
  exact hget

/-- An item that has a name is at its name. -/
theorem child_of_item {n : List Char} (hd : Distinct getName items)
    (hv : v ∈ items) (hn : getName v = some n) :
    (Value.array items).child (.item n) = some v := by
  rw [child_array items hn]
  exact partner_of_mem hd hv rfl (hn ▸ Option.some_ne_none n)

/-- The keys of an item that has a name are distinct. -/
theorem keyed_items (h : Proper (.array items)) :
    ∀ i ∈ items, getName i ≠ none → Keyed i := by
  intro i hi hn
  obtain ⟨n, hn⟩ := Option.ne_none_iff_exists'.mp hn
  exact (h.child (child_of_item h.named hi hn)).named.keyed

-- == what is merged

theorem Joined.imp {R R' : Value α → Value α → Value α → Prop}
    {u v w : Option (Value α)} (h : Joined R u v w)
    (hR : ∀ x y z, u = some x → v = some y → R x y z → R' x y z) :
    Joined R' u v w := by
  cases u with
  | none => cases v <;> exact h
  | some x =>
      cases v with
      | none => exact h
      | some y =>
          obtain ⟨z, hz, h⟩ := h
          exact ⟨z, hz, hR x y z rfl rfl h⟩

theorem merge_onto_string (l : Value α) (t : List Char) (depth : Nat) :
    mergeTomlValues l (.string t) depth = .string t := by
  cases depth <;> cases l <;> rfl

theorem merge_onto_scalar (l : Value α) (x : α) (depth : Nat) :
    mergeTomlValues l (.scalar x) depth = .scalar x := by
  cases depth <;> cases l <;> rfl

/-- What is merged has each name once, and all items without one. -/
theorem unions_merge (hl : Proper l) (hr : Proper r) (depth : Nat) :
    Unions depth l r (mergeTomlValues l r depth) := by
  induction depth generalizing l r with
  | zero =>
      rw [mergeTomlValues_zero]
      cases l <;> cases r <;> rfl
  | succ depth ih =>
      cases r with
      | string t => cases l <;> rfl
      | scalar x => cases l <;> rfl
      | table rs =>
          cases l with
          | string t => rfl
          | scalar x => rfl
          | array ls => rfl
          | table ls =>
              refine ⟨_, merge_tables ls rs depth,
                distinct_merge (joins_mergeEntry depth) (fun _ _ => trivial)
                  hl.named hr.named fun _ _ => trivial,
                fun k => mem_names_merge (joins_mergeEntry depth)
                  (fun _ _ => trivial) hl.named hr.named fun _ _ => trivial,
                fun k => (joined_get hl.named hr.named depth k).imp ?_⟩
              rintro x y z hx hy rfl
              have hkey : ∀ v : Value α, v.child (.key k) = v.get k :=
                fun _ => rfl
              exact ih (hl.child ((hkey _).trans hx))
                (hr.child ((hkey _).trans hy))
      | array rs =>
          cases l with
          | string t => rfl
          | scalar x => rfl
          | table ls => rfl
          | array ls =>
              have hkl := keyed_items hl
              have hkr := keyed_items hr
              refine ⟨_, merge_arrays ls rs depth,
                distinct_merge (joins_merge_items depth) hkl hl.named
                  hr.named hkr,
                fun n => mem_names_merge (joins_merge_items depth) hkl
                  hl.named hr.named hkr,
                unnamed_merge (joins_merge_items depth) hkl hl.named hr.named
                  hkr,
                fun n => (joined_item hl.named hr.named hkl hkr depth n).imp
                  ?_⟩
              rintro x y z hx hy rfl
              exact ih (hl.child hx) (hr.child hy)

/-- Three layers may be merged in either grouping. -/
theorem merge_layers (ha : Proper a) (hb : Proper b) (hc : Proper c)
    (hab : Compatible a b) (hbc : Compatible b c) (hac : Compatible a c)
    (depth : Nat) :
    mergeTomlValues (mergeTomlValues a b depth) c depth =
      mergeTomlValues a (mergeTomlValues b c depth) depth := by
  induction depth generalizing a b c with
  | zero => simp only [mergeTomlValues_zero]
  | succ depth ih =>
      have hbc' := hbc.shape
      have hac' := hac.shape
      cases c with
      | string t => simp only [merge_onto_string]
      | scalar x => simp only [merge_onto_scalar]
      | table cs =>
          cases b with
          | string t => exact hbc'.elim
          | scalar x => exact hbc'.elim
          | array bs => exact hbc'.elim
          | table bs =>
              cases a with
              | string t => exact hac'.elim
              | scalar x => exact hac'.elim
              | array as => exact hac'.elim
              | table as =>
                  simp only [merge_tables]
                  refine congrArg Value.table (Overlay.merge_assoc
                    (joins_mergeEntry depth) (fun _ _ => trivial)
                    (fun _ _ => trivial) (fun _ _ => trivial) ha.named
                    hb.named hc.named fun x hx y hy z hz hxz hyz _ => ?_)
                  have hx := child_of_entry ha.named hx
                  have hy := child_of_entry hb.named hy
                  have hz := child_of_entry hc.named hz
                  rw [Option.some.inj hxz] at hx
                  rw [Option.some.inj hyz] at hy
                  exact Prod.ext rfl (ih (ha.child hx) (hb.child hy)
                    (hc.child hz) (hab.child hx hy) (hbc.child hy hz)
                    (hac.child hx hz))
      | array cs =>
          cases b with
          | string t => exact hbc'.elim
          | scalar x => exact hbc'.elim
          | table bs => exact hbc'.elim
          | array bs =>
              cases a with
              | string t => exact hac'.elim
              | scalar x => exact hac'.elim
              | table as => exact hac'.elim
              | array as =>
                  simp only [merge_arrays]
                  refine congrArg Value.array (Overlay.merge_assoc
                    (joins_merge_items depth) (keyed_items ha)
                    (keyed_items hb) (keyed_items hc) ha.named hb.named
                    hc.named fun x hx y hy z hz hxz hyz hn => ?_)
                  obtain ⟨n, hn⟩ := Option.ne_none_iff_exists'.mp hn
                  have hx := child_of_item ha.named hx (hxz.trans hn)
                  have hy := child_of_item hb.named hy (hyz.trans hn)
                  have hz := child_of_item hc.named hz hn
                  exact ih (ha.child hx) (hb.child hy) (hc.child hz)
                    (hab.child hx hy) (hbc.child hy hz) (hac.child hx hz)

/-- What is at a place is from one of the two, or merged. -/
theorem Joined.origin {u v : Option (Value α)} {w : Value α}
    (h : Joined (fun x y z => z = mergeTomlValues x y depth) u v (some w)) :
    u = some w ∨ v = some w ∨
      ∃ x y d, u = some x ∧ v = some y ∧ w = mergeTomlValues x y d := by
  cases u with
  | none => cases v <;> exact .inr (.inl h.symm)
  | some x =>
      cases v with
      | none => exact .inl h.symm
      | some y =>
          obtain ⟨z, hz, rfl⟩ := h
          exact .inr (.inr ⟨x, y, depth, rfl, rfl, Option.some.inj hz⟩)

theorem child_merge (hl : Proper l) (hr : Proper r) {s : Step}
    {w : Value α} (h : (mergeTomlValues l r depth).child s = some w) :
    l.child s = some w ∨ r.child s = some w ∨
      ∃ x y d, l.child s = some x ∧ r.child s = some y ∧
        w = mergeTomlValues x y d := by
  cases depth with
  | zero =>
      rw [mergeTomlValues_zero] at h
      exact .inr (.inl h)
  | succ depth =>
      cases r with
      | string t => exact .inr (.inl (merge_onto_string l t _ ▸ h))
      | scalar x => exact .inr (.inl (merge_onto_scalar l x _ ▸ h))
      | table rs =>
          cases l with
          | string t => exact .inr (.inl h)
          | scalar x => exact .inr (.inl h)
          | array ls => exact .inr (.inl h)
          | table ls =>
              cases s with
              | item n => cases h
              | key k =>
                  have hjoined := joined_get hl.named hr.named depth k
                  have hget : (mergeTomlValues (.table ls) (.table rs)
                    (depth + 1)).get k = some w := h
                  rw [hget] at hjoined
                  exact hjoined.origin
      | array rs =>
          cases l with
          | string t => exact .inr (.inl h)
          | scalar x => exact .inr (.inl h)
          | table ls => exact .inr (.inl h)
          | array ls =>
              cases s with
              | key k => cases h
              | item n =>
                  have hjoined := joined_item hl.named hr.named
                    (keyed_items hl) (keyed_items hr) depth n
                  rw [h] at hjoined
                  exact hjoined.origin

theorem Unions.named (h : Unions depth l r v) (hr : Named r) : Named v := by
  cases depth with
  | zero =>
      obtain rfl : v = r := h
      exact hr
  | succ depth =>
      cases r with
      | string t =>
          obtain rfl : v = .string t := by cases l <;> exact h
          exact hr
      | scalar x =>
          obtain rfl : v = .scalar x := by cases l <;> exact h
          exact hr
      | table rs =>
          cases l with
          | table ls =>
              obtain ⟨entries, rfl, hd, -⟩ := h
              exact hd
          | string t => exact h ▸ hr
          | scalar x => exact h ▸ hr
          | array ls => exact h ▸ hr
      | array rs =>
          cases l with
          | array ls =>
              obtain ⟨items, rfl, hd, -⟩ := h
              exact hd
          | string t => exact h ▸ hr
          | scalar x => exact h ▸ hr
          | table ls => exact h ▸ hr

/-- What is merged has distinct keys and names at every place again. -/
theorem proper_merge (hl : Proper l) (hr : Proper r) (depth : Nat) :
    Proper (mergeTomlValues l r depth) := by
  intro p
  induction p generalizing l r depth with
  | nil =>
      rintro x hx
      cases hx
      exact (unions_merge hl hr depth).named hr.named
  | cons s p ih =>
      intro x hx
      obtain ⟨w, hw, hx⟩ := Option.bind_eq_some_iff.mp hx
      rcases child_merge hl hr hw with hw | hw | ⟨y, z, d, hy, hz, rfl⟩
      · exact hl.child hw p x hx
      · exact hr.child hw p x hx
      · exact ih (hl.child hy) (hr.child hz) d x hx

/-- Merging by name is associative wherever the three values have the same
shapes, and gives each merged table and array the names of both. -/
theorem merge_toml_values_law (a b c : Value α) (depth : Nat)
    (ha : Proper a) (hb : Proper b) (hc : Proper c)
    (hab : Compatible a b) (hbc : Compatible b c) (hac : Compatible a c) :
    mergeTomlValues (mergeTomlValues a b depth) c depth =
        mergeTomlValues a (mergeTomlValues b c depth) depth ∧
      Unions depth a b (mergeTomlValues a b depth) ∧
      Unions depth (mergeTomlValues a b depth) c
        (mergeTomlValues (mergeTomlValues a b depth) c depth) :=
  ⟨merge_layers ha hb hc hab hbc hac depth, unions_merge ha hb depth,
    unions_merge (proper_merge ha hb depth) hc depth⟩

/-- A table of one number has that number and itself at its places. -/
theorem at_singleton {k : List Char} {n : α} {p : List Step}
    (h : (Value.table [(k, .scalar n)]).at p = some x) :
    p = [] ∧ x = .table [(k, .scalar n)] ∨
      p = [.key k] ∧ x = .scalar n := by
  cases p with
  | nil => exact .inl ⟨rfl, (Option.some.inj h).symm⟩
  | cons s p =>
      obtain ⟨w, hw, hx⟩ := Option.bind_eq_some_iff.mp h
      cases s with
      | item m => cases hw
      | key k' =>
          obtain ⟨e, he, rfl⟩ := Option.map_eq_some_iff.mp hw
          obtain rfl := List.mem_singleton.mp (List.mem_of_find?_eq_some he)
          have hk : k = k' := by simpa [key] using List.find?_some he
          cases p with
          | nil => exact .inr ⟨hk ▸ rfl, (Option.some.inj hx).symm⟩
          | cons s' p => cases s' <;> cases hx

theorem proper_singleton (k : List Char) (n : α) :
    Proper (.table [(k, .scalar n)]) := by
  intro p x h
  rcases at_singleton h with ⟨-, rfl⟩ | ⟨-, rfl⟩
  · exact distinct_singleton _
  · trivial

theorem compatible_singleton (k k' : List Char) (n n' : α) :
    Compatible (.table [(k, .scalar n)]) (.table [(k', .scalar n')]) := by
  intro p x y hx hy
  rcases at_singleton hx with ⟨rfl, rfl⟩ | ⟨rfl, rfl⟩
  · rcases at_singleton hy with ⟨-, rfl⟩ | ⟨h, -⟩
    · trivial
    · cases h
  · rcases at_singleton hy with ⟨h, -⟩ | ⟨-, rfl⟩
    · cases h
    · trivial

theorem merge_toml_values_law_number :
    mergeTomlValues (mergeTomlValues (.table [(['a'], .scalar 1)])
        (.table [(['b'], .scalar 2)]) 3) (.table [(['a'], .scalar 3)]) 3 =
      Value.table [(['b'], .scalar 2), (['a'], .scalar 3)] := by
  rw [(merge_toml_values_law (.table [(['a'], .scalar 1)])
    (.table [(['b'], .scalar 2)]) (.table [(['a'], .scalar 3)]) 3
    (proper_singleton _ _) (proper_singleton _ _) (proper_singleton _ _)
    (compatible_singleton _ _ _ _) (compatible_singleton _ _ _ _)
    (compatible_singleton _ _ _ _)).1]
  rfl

end Zmax.Toml
