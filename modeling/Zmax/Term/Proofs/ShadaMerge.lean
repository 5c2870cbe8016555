/-
Merging the entries of a file with those of a session.

The map from keys to places and the entries stay in step (`InStep`), so
each loop puts entries among those with other keys (Lib/Keyed.lean): the
first keeps the last one with a key, the second the later one, and the one
there at a tie. What a key has in the end is the first with the greatest
timestamp among the last entry of the session and the entries of the file.
-/
import Zmax.Lib.Keyed
import Zmax.Term.Shada.File

namespace Zmax.Shada

open Keyed

variable {debug : Value → Tendril} {m m' : Merged}
  {entries old new out : List Entry} {entry e : Entry}

/-- The key of an entry. -/
def Entry.mergeKey (debug : Value → Tendril) (self : Entry) :
    UInt64 × Tendril := self.kind.mergeKey debug

/-- Of an entry of this session and another one the other one stays. -/
def latter (_ entry : Entry) : Entry := entry

/-- Of an entry and another one of the file the newer one stays. -/
def newer (current entry : Entry) : Entry :=
  if current.timestamp < entry.timestamp then entry else current

/-- The entries that compete for a key: the last one of the session, and
those of the file, but for headers. -/
def candidates (debug : Value → Tendril) (old new : List Entry)
    (k : UInt64 × Tendril) : List Entry :=
  (new.filter (Entry.mergeKey debug · = k)).getLast?.toList
    ++ (old.filter (!·.kind.isHeader)).filter (Entry.mergeKey debug · = k)

/-- The first of some entries with the greatest timestamp. -/
def FirstGreatest (entries : List Entry) (e : Entry) : Prop :=
  ∃ before after, entries = before ++ e :: after
    ∧ (∀ c ∈ before, c.timestamp < e.timestamp)
    ∧ ∀ c ∈ after, c.timestamp ≤ e.timestamp

-- == the map

/-- The map says where a key is. -/
structure InStep (debug : Value → Tendril) (m : Merged) : Prop where
  nodup : (m.merged.map (Entry.mergeKey debug)).Nodup
  get : ∀ k i, m.keys.get k = some i ↔
    (m.merged.map (Entry.mergeKey debug))[i]? = some k

theorem InStep.start : InStep debug ⟨[], []⟩ :=
  ⟨List.nodup_nil, fun _ _ => ⟨nofun, nofun⟩⟩

theorem InStep.push (h : InStep debug m)
    (hnone : m.keys.get (entry.mergeKey debug) = none) :
    entry.mergeKey debug ∉ m.merged.map (Entry.mergeKey debug)
      ∧ InStep debug (m.push (entry.mergeKey debug) entry) := by
  have hnew : entry.mergeKey debug
      ∉ m.merged.map (Entry.mergeKey debug) := by
    intro hmem
    obtain ⟨i, hi⟩ := List.getElem?_of_mem hmem
    cases hnone.symm.trans ((h.get _ i).mpr hi)
  refine ⟨hnew, ?_, fun k i => ?_⟩
  · show ((m.merged ++ [entry]).map _).Nodup
    rw [List.map_append]
    exact List.nodup_append.mpr ⟨h.nodup, List.nodup_singleton _,
      fun a ha b hb heq => hnew (List.mem_singleton.mp hb ▸ heq ▸ ha)⟩
  · show (m.keys.insert _ m.merged.length).get k = some i
      ↔ ((m.merged ++ [entry]).map _)[i]? = some k
    rw [List.map_append, List.getElem?_append, List.length_map]
    by_cases hk : k = entry.mergeKey debug
    · subst hk
      rw [Table.get_insert_self]
      constructor
      · rintro ⟨⟩
        rw [if_neg (Nat.lt_irrefl _), Nat.sub_self]
        rfl
      · intro hi
        by_cases hlt : i < m.merged.length
        · rw [if_pos hlt] at hi
          exact absurd (List.mem_of_getElem? hi) hnew
        · rw [if_neg hlt] at hi
          have hzero := (List.getElem?_eq_some_iff.mp hi).1
          rw [List.length_map, List.length_singleton] at hzero
          exact congrArg some (by omega)
    · rw [Table.get_insert_ne hk, h.get]
      by_cases hlt : i < m.merged.length
      · rw [if_pos hlt]
      · rw [if_neg hlt, List.getElem?_eq_none
          (by rw [List.length_map]; exact Nat.le_of_not_lt hlt)]
        refine ⟨nofun, fun hi => ?_⟩
        have hmem := List.mem_of_getElem? hi
        rw [List.map_singleton, List.mem_singleton] at hmem
        exact absurd hmem hk

/-- Where the map finds a key there is an entry with it, and another one
with the key can be put there. -/
theorem InStep.assign (h : InStep debug m) {i : Nat}
    (hi : m.keys.get (entry.mergeKey debug) = some i) :
    ∃ current, m.merged[i]? = some current
      ∧ current.mergeKey debug = entry.mergeKey debug
      ∧ m.assign i entry
        = .ok { m with merged := m.merged.set i entry }
      ∧ InStep debug { m with merged := m.merged.set i entry } := by
  have hkey := (h.get _ i).mp hi
  rw [List.getElem?_map, Option.map_eq_some_iff] at hkey
  obtain ⟨current, hcurrent, hkey⟩ := hkey
  have hkeys : (m.merged.set i entry).map (Entry.mergeKey debug)
      = m.merged.map (Entry.mergeKey debug) := by
    obtain ⟨hi, hget⟩ := List.getElem?_eq_some_iff.mp hcurrent
    rw [List.map_set, ← hkey, ← List.map_set, ← hget,
      List.set_getElem_self]
  have hlt := (List.getElem?_eq_some_iff.mp hcurrent).1
  refine ⟨current, hcurrent, hkey, if_pos hlt, ?_, ?_⟩
  · rw [hkeys]
    exact h.nodup
  · rw [hkeys]
    exact h.get

-- == the loops

/-- Entries that are put one after the other. -/
abbrev putAll (debug : Value → Tendril) (pick : Entry → Entry → Entry)
    (merged entries : List Entry) : List Entry :=
  entries.foldl (put (Entry.mergeKey debug) pick) merged

theorem mergeNew_spec (h : InStep debug m) (entry : Entry) :
    ∃ m', mergeNew debug m entry = .ok m' ∧ InStep debug m'
      ∧ m'.merged = put (Entry.mergeKey debug) latter m.merged entry := by
  unfold mergeNew
  dsimp only
  cases hget : m.keys.get (entry.kind.mergeKey debug) with
  | none =>
      obtain ⟨hnew, hpush⟩ := h.push hget
      exact ⟨_, rfl, hpush, (put_of_not_mem hnew).symm⟩
  | some i =>
      obtain ⟨current, hcurrent, hkey, hassign, hstep⟩ := h.assign hget
      have hput := @put_of_get _ _ _ _ latter _ entry _ _ h.nodup hcurrent hkey
      exact ⟨_, hassign, hstep, hput.symm⟩

theorem mergeOld_spec (h : InStep debug m) (entry : Entry)
    (hheader : entry.kind.isHeader = false) :
    ∃ m', mergeOld debug m entry = .ok m' ∧ InStep debug m'
      ∧ m'.merged = put (Entry.mergeKey debug) newer m.merged entry := by
  unfold mergeOld
  rw [if_neg (by rw [hheader]; exact Bool.false_ne_true)]
  dsimp only
  cases hget : m.keys.get (entry.kind.mergeKey debug) with
  | none =>
      obtain ⟨hnew, hpush⟩ := h.push hget
      exact ⟨_, rfl, hpush, (put_of_not_mem hnew).symm⟩
  | some i =>
      obtain ⟨current, hcurrent, hkey, hassign, hstep⟩ := h.assign hget
      have hput := @put_of_get _ _ _ _ newer _ entry _ _ h.nodup hcurrent hkey
      dsimp only
      rw [index_eq_ok.mpr hcurrent, ok_bind]
      unfold newer at hput
      by_cases hlt : current.timestamp < entry.timestamp
      · rw [if_pos hlt] at hput ⊢
        exact ⟨_, hassign, hstep, hput.symm⟩
      · rw [if_neg hlt] at hput ⊢
        refine ⟨m, rfl, h, hput.trans ?_ |>.symm⟩
        obtain ⟨hi, hget⟩ := List.getElem?_eq_some_iff.mp hcurrent
        rw [← hget, List.set_getElem_self]

theorem mergeNew_all (h : InStep debug m) :
    ∃ m', entries.foldlM (mergeNew debug) m = .ok m' ∧ InStep debug m'
      ∧ m'.merged = putAll debug latter m.merged entries := by
  induction entries generalizing m with
  | nil => exact ⟨m, rfl, h, rfl⟩
  | cons entry entries ih =>
      obtain ⟨m', hstep, h', hput⟩ := mergeNew_spec h entry
      obtain ⟨m'', hrest, h'', hall⟩ := ih h'
      refine ⟨m'', ?_, h'', ?_⟩
      · rw [List.foldlM_cons, hstep, ok_bind, hrest]
      · rw [hall, hput]
        rfl

/-- The headers of the file are passed over. -/
theorem mergeOld_all (h : InStep debug m) :
    ∃ m', entries.foldlM (mergeOld debug) m = .ok m' ∧ InStep debug m'
      ∧ m'.merged = putAll debug newer m.merged
        (entries.filter (!·.kind.isHeader)) := by
  induction entries generalizing m with
  | nil => exact ⟨m, rfl, h, rfl⟩
  | cons entry entries ih =>
      cases hheader : entry.kind.isHeader with
      | true =>
          obtain ⟨m', hrest, h', hall⟩ := ih h
          refine ⟨m', ?_, h', ?_⟩
          · rw [List.foldlM_cons, mergeOld, if_pos hheader, ok_bind, hrest]
          · rw [hall, List.filter_cons_of_neg (by simp [hheader])]
      | false =>
          obtain ⟨m', hstep, h', hput⟩ := mergeOld_spec h entry hheader
          obtain ⟨m'', hrest, h'', hall⟩ := ih h'
          refine ⟨m'', ?_, h'', ?_⟩
          · rw [List.foldlM_cons, hstep, ok_bind, hrest]
          · rw [hall, hput, List.filter_cons_of_pos (by simp [hheader])]
            rfl

/-- What `merge` does, without the map. -/
theorem merge_eq (debug : Value → Tendril) (old new : List Entry) :
    merge debug old new = .ok (putAll debug newer
      (putAll debug latter [] new) (old.filter (!·.kind.isHeader))) := by
  obtain ⟨m, hnew, h, hm⟩ := @mergeNew_all _ _ new (@InStep.start debug)
  obtain ⟨m', hold, -, hm'⟩ := @mergeOld_all _ _ old h
  unfold merge
  rw [hnew, ok_bind, hold, ok_bind, ← hm, ← hm']
  rfl

-- == the greatest

theorem latter_key {x y : Entry}
    (h : x.mergeKey debug = y.mergeKey debug) :
    (latter x y).mergeKey debug = x.mergeKey debug := h.symm

theorem newer_key {x y : Entry}
    (h : x.mergeKey debug = y.mergeKey debug) :
    (newer x y).mergeKey debug = x.mergeKey debug := by
  unfold newer
  split
  · exact h.symm
  · rfl

/-- Of the entries of the session the last one with a key stays. -/
theorem find_latter (k : UInt64 × Tendril) :
    find (Entry.mergeKey debug) k (putAll debug latter [] new)
      = (new.filter (Entry.mergeKey debug · = k)).getLast? := by
  rw [@find_foldl_put _ _ _ (Entry.mergeKey debug) latter [] new
    (fun _ _ => latter_key) k]
  generalize new.filter (Entry.mergeKey debug · = k) = entries
  have hfold : ∀ found, entries.foldl
      (fun found y => some (pickAfter latter found y)) found
        = entries.getLast?.or found := by
    induction entries with
    | nil => exact fun _ => rfl
    | cons y entries ih =>
        intro found
        rw [List.foldl_cons, ih]
        have hy : pickAfter latter found y = y := by cases found <;> rfl
        rw [hy, List.getLast?_cons]
        cases entries.getLast? <;> rfl
  exact (hfold none).trans Option.or_none

/-- Newer and newer, the first with the greatest timestamp stays. -/
theorem firstGreatest_foldl (entries : List Entry) (e : Entry) :
    ∃ last, entries.foldl
        (fun found y => some (pickAfter newer found y)) (some e) = some last
      ∧ FirstGreatest (e :: entries) last := by
  induction entries generalizing e with
  | nil => exact ⟨e, rfl, [], [], rfl, nofun, nofun⟩
  | cons y entries ih =>
      obtain ⟨last, hlast, before, after, heq, hbefore, hafter⟩ :=
        ih (newer e y)
      refine ⟨last, hlast, ?_⟩
      by_cases hlt : e.timestamp < y.timestamp
      · -- the one before is older than what comes of the rest
        have hnewer : newer e y = y := if_pos hlt
        rw [hnewer] at heq
        refine ⟨e :: before, after, congrArg (e :: ·) heq, ?_, hafter⟩
        have hle : y.timestamp ≤ last.timestamp := by
          cases before with
          | nil =>
              injection heq with heq
              rw [heq]
              exact UInt64.le_refl _
          | cons b before =>
              injection heq with heq
              exact UInt64.le_of_lt (heq ▸ hbefore b List.mem_cons_self)
        intro c hc
        rcases List.mem_cons.mp hc with rfl | hc
        · exact UInt64.lt_of_lt_of_le hlt hle
        · exact hbefore c hc
      · have hnewer : newer e y = e := if_neg hlt
        rw [hnewer] at heq
        have hle : y.timestamp ≤ e.timestamp := UInt64.not_lt.mp hlt
        cases before with
        | nil =>
            injection heq with heq hrest
            subst heq
            refine ⟨[], y :: entries, rfl, nofun, fun c hc => ?_⟩
            rcases List.mem_cons.mp hc with rfl | hc
            · exact hle
            · exact hafter c (hrest ▸ hc)
        | cons b before =>
            injection heq with heq hrest
            subst heq
            refine ⟨e :: y :: before, after, by rw [hrest]; rfl, ?_, hafter⟩
            intro c hc
            have he := hbefore e List.mem_cons_self
            rcases List.mem_cons.mp hc with rfl | hc
            · exact he
            · rcases List.mem_cons.mp hc with rfl | hc
              · exact UInt64.lt_of_le_of_lt hle he
              · exact hbefore c (List.mem_cons_of_mem _ hc)

-- == the law

/-- What a merge has for a key. -/
theorem find_merged (k : UInt64 × Tendril) :
    find (Entry.mergeKey debug) k (putAll debug newer
        (putAll debug latter [] new) (old.filter (!·.kind.isHeader)))
      = (candidates debug old new k).head?.bind fun e =>
        ((candidates debug old new k).tail).foldl
          (fun found y => some (pickAfter newer found y)) (some e) := by
  rw [@find_foldl_put _ _ _ (Entry.mergeKey debug) newer _ _
    (fun _ _ => newer_key) k, find_latter]
  unfold candidates
  cases (new.filter (Entry.mergeKey debug · = k)).getLast? with
  | some e => rfl
  | none =>
      cases (old.filter (!·.kind.isHeader)).filter
          (Entry.mergeKey debug · = k) with
      | nil => rfl
      | cons e rest => rfl

theorem find_merged_greatest {k : UInt64 × Tendril}
    (h : find (Entry.mergeKey debug) k (putAll debug newer
        (putAll debug latter [] new) (old.filter (!·.kind.isHeader)))
      = some e) : FirstGreatest (candidates debug old new k) e := by
  rw [find_merged] at h
  cases hc : candidates debug old new k with
  | nil =>
      rw [hc] at h
      cases h
  | cons first rest =>
      rw [hc] at h
      obtain ⟨last, hlast, hgreatest⟩ := firstGreatest_foldl rest first
      obtain rfl := Option.some.inj (hlast.symm.trans h)
      exact hgreatest

theorem keys_merged (debug : Value → Tendril) (old new : List Entry) :
    (putAll debug newer (putAll debug latter [] new)
        (old.filter (!·.kind.isHeader))).map (Entry.mergeKey debug)
      = firsts (new.map (Entry.mergeKey debug)
        ++ (old.filter (!·.kind.isHeader)).map (Entry.mergeKey debug)) := by
  refine keys_foldl_put (fun _ _ => newer_key) ?_
  exact @keys_foldl_put _ _ _ _ latter [] new [] (fun _ _ => latter_key)
    rfl

/-- A merge result, as the law states it. -/
structure MergeOf (debug : Value → Tendril) (old new out : List Entry) :
    Prop where
  keys : out.map (Entry.mergeKey debug)
    = firsts (new.map (Entry.mergeKey debug)
      ++ (old.filter (!·.kind.isHeader)).map (Entry.mergeKey debug))
  greatest : ∀ e ∈ out,
    FirstGreatest (candidates debug old new (e.mergeKey debug)) e

theorem MergeOf.nodup (h : MergeOf debug old new out) :
    (out.map (Entry.mergeKey debug)).Nodup := by
  rw [h.keys]
  exact nodup_firsts _

theorem mergeOf_merged (debug : Value → Tendril) (old new : List Entry) :
    MergeOf debug old new (putAll debug newer (putAll debug latter [] new)
      (old.filter (!·.kind.isHeader))) := by
  have hkeys := keys_merged debug old new
  refine ⟨hkeys, fun e he => ?_⟩
  exact find_merged_greatest (find_of_mem (hkeys ▸ nodup_firsts _) he)

/-- What competes with an entry is a header only if it is of the
session. -/
theorem MergeOf.cases (h : MergeOf debug old new out) (he : e ∈ out) :
    (∃ n, (new.filter (Entry.mergeKey debug · = e.mergeKey debug)).getLast?
        = some n ∧ (e = n ∨ n.timestamp < e.timestamp
          ∧ e.kind.isHeader = false))
      ∨ (new.filter (Entry.mergeKey debug · = e.mergeKey debug)).getLast?
        = none ∧ e.kind.isHeader = false := by
  obtain ⟨before, after, hc, hbefore, -⟩ := h.greatest e he
  have hold : e ∈ (old.filter (!·.kind.isHeader)).filter
      (Entry.mergeKey debug · = e.mergeKey debug) →
      e.kind.isHeader = false := by
    intro hmem
    have hnot := (List.mem_filter.mp (List.mem_filter.mp hmem).1).2
    rwa [Bool.not_eq_true'] at hnot
  unfold candidates at hc
  cases hn : (new.filter (Entry.mergeKey debug · = e.mergeKey debug)).getLast?
    with
  | none =>
      rw [hn] at hc
      refine .inr ⟨rfl, hold ?_⟩
      have hmem : e ∈ before ++ e :: after :=
        List.mem_append_right _ List.mem_cons_self
      rw [← hc] at hmem
      exact hmem
  | some n =>
      rw [hn] at hc
      refine .inl ⟨n, rfl, ?_⟩
      cases before with
      | nil =>
          injection hc with hc
          exact .inl hc.symm
      | cons b before =>
          injection hc with hb hc
          refine .inr ⟨hb ▸ hbefore b List.mem_cons_self, hold ?_⟩
          rw [show (old.filter (!·.kind.isHeader)).filter
            (Entry.mergeKey debug · = e.mergeKey debug)
              = before ++ e :: after from hc]
          exact List.mem_append_right _ List.mem_cons_self

/-- Merging with the same entries of the session again changes nothing. -/
theorem MergeOf.again (h : MergeOf debug old new out) :
    putAll debug newer (putAll debug latter [] new)
      (out.filter (!·.kind.isHeader)) = out := by
  have hkeys := keys_merged debug out new
  have hsession : ∀ e ∈ out, e.kind.isHeader = true →
      e.mergeKey debug ∈ new.map (Entry.mergeKey debug) := by
    intro e he hheader
    rcases h.cases he with ⟨n, hn, -⟩ | ⟨-, hno⟩
    · obtain ⟨hmem, hkey⟩ := List.mem_filter.mp (List.mem_of_getLast? hn)
      exact of_decide_eq_true hkey ▸ List.mem_map_of_mem hmem
    · cases hheader.symm.trans hno
  refine ext (hkeys ▸ nodup_firsts _) ?_ fun k => ?_
  · rw [hkeys]
    exact firsts_again h.keys fun e he hp =>
      hsession e he (by rwa [Bool.not_eq_false'] at hp)
  · rw [@find_foldl_put _ _ _ (Entry.mergeKey debug) newer _ _
      (fun _ _ => newer_key) k, find_latter]
    cases hfind : find (Entry.mergeKey debug) k out with
    | none =>
        have hno : ∀ e ∈ out, e.mergeKey debug ≠ k := fun e he hk => by
          cases hfind.symm.trans (hk ▸ find_of_mem h.nodup he)
        have hnil : (out.filter (!·.kind.isHeader)).filter
            (Entry.mergeKey debug · = k) = [] :=
          List.filter_eq_nil_iff.mpr fun e he hk =>
            hno e (List.mem_filter.mp he).1 (of_decide_eq_true hk)
        rw [hnil, List.foldl_nil]
        by_contra hsome
        obtain ⟨n, hn⟩ := Option.ne_none_iff_exists'.mp hsome
        obtain ⟨hmem, hkey⟩ := List.mem_filter.mp (List.mem_of_getLast? hn)
        have hk : k ∈ out.map (Entry.mergeKey debug) := by
          rw [h.keys, mem_firsts, ← of_decide_eq_true hkey]
          exact List.mem_append_left _ (List.mem_map_of_mem hmem)
        obtain ⟨e, he, hek⟩ := List.mem_map.mp hk
        exact hno e he hek
    | some e =>
        have he := mem_of_find hfind
        obtain rfl := key_of_find hfind
        rw [filter_key h.nodup he]
        rcases h.cases he with ⟨n, hn, hcases⟩ | ⟨hn, hheader⟩
        · rw [hn]
          rcases hcases with rfl | ⟨hlt, hheader⟩
          · cases hheader : e.kind.isHeader with
            | true => rw [List.filter_cons_of_neg (by simp [hheader])]; rfl
            | false =>
                rw [List.filter_cons_of_pos (by simp [hheader])]
                exact congrArg some (if_neg (UInt64.lt_irrefl _))
          · rw [List.filter_cons_of_pos (by simp [hheader])]
            exact congrArg some (if_pos hlt)
        · rw [hn, List.filter_cons_of_pos (by simp [hheader])]
          rfl

/-- Each key has, in the order of their first occurrences with those of
the session in front, the first with the greatest timestamp of the last
entry of the session and the entries of the file; and merging again
changes nothing. -/
theorem shada_merge_law (debug : Value → Tendril) (old new : List Entry) :
    ∃ out, merge debug old new = .ok out
      ∧ MergeOf debug old new out
      ∧ (out.map (Entry.mergeKey debug)).Nodup
      ∧ (∀ k, k ∈ out.map (Entry.mergeKey debug) ↔
        k ∈ new.map (Entry.mergeKey debug)
          ∨ ∃ e ∈ old, e.kind.isHeader = false ∧ e.mergeKey debug = k)
      ∧ merge debug out new = .ok out := by
  have h := mergeOf_merged debug old new
  refine ⟨_, merge_eq debug old new, h, h.nodup, fun k => ?_, ?_⟩
  · rw [h.keys, mem_firsts, List.mem_append]
    refine or_congr_right ?_
    simp only [List.mem_map, List.mem_filter, Bool.not_eq_true', and_assoc]
  · rw [merge_eq, h.again]

/-- Of two entries of the session with one key the last one stays, though
it be the older one. -/
theorem not_shada_merge_law_session :
    ∃ out, merge (fun _ => []) []
        [⟨5, .subString ['a']⟩, ⟨3, .subString ['b']⟩] = .ok out
      ∧ ¬ ∀ e ∈ out, ∀ c ∈ [(⟨5, .subString ['a']⟩ : Entry),
          ⟨3, .subString ['b']⟩], c.mergeKey (fun _ => [])
            = e.mergeKey (fun _ => []) → c.timestamp ≤ e.timestamp := by
  refine ⟨[⟨3, .subString ['b']⟩], rfl, fun h => ?_⟩
  have hle := h _ List.mem_cons_self _ List.mem_cons_self rfl
  exact absurd hle (by decide)

end Zmax.Shada
