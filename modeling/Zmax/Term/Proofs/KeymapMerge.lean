/-
What a merged keymap binds.

The merge of two tries is the overlay of what they bind, path by path
(`search_laid`): both walk down together as long as both have a node, and
where only one has, the rest is its own. So a leaf of the other trie hides
whatever the first one has behind it, and nothing else is hidden. A trie
that is merged in a second time finds itself (`merge_again`).
-/
import Zmax.Term.Keymap

namespace Zmax

variable {κ γ : Type} [DecidableEq κ]

-- == invariant

mutual

/-- The keys of a map are distinct, at every node. -/
def KeyTrie.Keyed : KeyTrie κ γ → Prop
  | .node node => node.Keyed
  | .mappableCommand _ | .sequence _ => True

def KeyTrieNode.Keyed : KeyTrieNode κ γ → Prop
  | ⟨_, map, _, _⟩ => (map.map Prod.fst).Nodup ∧ EntriesKeyed map

def EntriesKeyed : List (κ × KeyTrie κ γ) → Prop
  | [] => True
  | (_, trie) :: rest => trie.Keyed ∧ EntriesKeyed rest

end

omit [DecidableEq κ] in
theorem EntriesKeyed.of_mem {map : List (κ × KeyTrie κ γ)}
    (h : EntriesKeyed map) {entry : κ × KeyTrie κ γ} (hmem : entry ∈ map) :
    entry.2.Keyed := by
  induction map with
  | nil => cases hmem
  | cons e rest ih =>
      obtain ⟨k, trie⟩ := e
      rw [EntriesKeyed] at h
      rcases List.mem_cons.mp hmem with rfl | hmem
      · exact h.1
      · exact ih h.2 hmem

-- == overlays

theorem KeyTrieNode.Keyed.get {node : KeyTrieNode κ γ} (h : node.Keyed)
    {key : κ} {trie : KeyTrie κ γ} (hget : node.get key = some trie) :
    trie.Keyed := by
  obtain ⟨name, map, isSticky, onEnter⟩ := node
  rw [KeyTrieNode.Keyed] at h
  exact h.2.of_mem (Table.mem_of_get hget)

/-- What stands where one trie is laid over another. -/
def laid (a b : Option (KeyTrie κ γ)) : Option (KeyTrie κ γ) :=
  match b with
  | none => a
  | some trie => some (mergeTrie a trie)

namespace KeyTrie

/-- What a key of a node is bound to. -/
def child (trie : KeyTrie κ γ) (key : κ) : Option (KeyTrie κ γ) :=
  match trie with
  | .node map => map.get key
  | .mappableCommand _ | .sequence _ => none

theorem search_cons (trie : KeyTrie κ γ) (key : κ) (keys : List κ) :
    trie.search (key :: keys) =
      (trie.child key).bind fun trie => trie.search keys := by
  cases trie with
  | mappableCommand cmd => rfl
  | sequence cmds => rfl
  | node map =>
      rw [search, child]
      cases map.get key <;> rfl

end KeyTrie

/-- An entry is laid over what there is for its key. -/
theorem get_mergeMap (map : Table κ (KeyTrie κ γ))
    {entries : List (κ × KeyTrie κ γ)}
    (h : (entries.map Prod.fst).Nodup) (key : κ) :
    (mergeMap map entries).get key =
      laid (map.get key) (Table.get entries key) := by
  induction entries generalizing map with
  | nil =>
      rw [mergeMap]
      rfl
  | cons entry entries ih =>
      obtain ⟨k, trie⟩ := entry
      obtain ⟨hk, hnodup⟩ := List.nodup_cons.mp h
      rw [mergeMap, ih _ hnodup, Table.get]
      by_cases heq : key = k
      · have hnone : Table.get entries key = none := by
          cases hget : Table.get entries key with
          | none => rfl
          | some t =>
              have hmem : key ∈ entries.map Prod.fst :=
                List.mem_map_of_mem (Table.mem_of_get hget)
              exact absurd (heq ▸ hmem) hk
        rw [hnone, heq, Table.get_insert_self, if_pos rfl]
        rfl
      · rw [Table.get_insert_ne heq, if_neg heq]

theorem KeyTrieNode.get_merge (a : KeyTrieNode κ γ) {b : KeyTrieNode κ γ}
    (hb : b.Keyed) (key : κ) :
    (a.merge b).get key = laid (a.get key) (b.get key) := by
  obtain ⟨name, map, isSticky, onEnter⟩ := b
  rw [KeyTrieNode.Keyed] at hb
  rw [merge]
  exact get_mergeMap a.map hb.1 key

/-- A key of a node that is laid over something. -/
theorem child_mergeTrie (a : Option (KeyTrie κ γ)) {b : KeyTrieNode κ γ}
    (hb : b.Keyed) (key : κ) :
    (mergeTrie a (.node b)).child key =
      laid (a.bind fun trie => trie.child key) (b.get key) := by
  have hself : b.get key = laid none (b.get key) := by
    cases b.get key with
    | none => rfl
    | some trie => cases trie <;> rfl
  cases a with
  | none =>
      rw [mergeTrie]
      · exact hself
      · nofun
  | some trie =>
      cases trie with
      | mappableCommand cmd =>
          rw [mergeTrie]
          · exact hself
          · nofun
      | sequence cmds =>
          rw [mergeTrie]
          · exact hself
          · nofun
      | node a =>
          rw [mergeTrie]
          exact a.get_merge hb key

/-- A path that goes on behind a command or a sequence. -/
def PassesLeaf (trie : KeyTrie κ γ) (path : List κ) : Prop :=
  ∃ path' key rest leaf, path = path' ++ key :: rest ∧
    trie.search path' = some leaf ∧ leaf.IsLeaf

theorem passesLeaf_cons {node : KeyTrieNode κ γ} {key : κ}
    {keys : List κ} : PassesLeaf (.node node) (key :: keys) ↔
      ∃ trie, node.get key = some trie ∧ PassesLeaf trie keys := by
  constructor
  · rintro ⟨path', k, rest, leaf, hpath, hsearch, hleaf⟩
    cases path' with
    | nil =>
        rw [KeyTrie.search_nil, Option.some.injEq] at hsearch
        subst hsearch
        cases hleaf
    | cons k' path' =>
        injection hpath with hkey hpath
        subst hkey
        rw [KeyTrie.search_cons] at hsearch
        obtain ⟨trie, hget, hsearch⟩ := Option.bind_eq_some_iff.mp hsearch
        exact ⟨trie, hget, path', k, rest, leaf, hpath, hsearch, hleaf⟩
  · rintro ⟨trie, hget, path', k, rest, leaf, rfl, hsearch, hleaf⟩
    refine ⟨key :: path', k, rest, leaf, rfl, ?_, hleaf⟩
    rw [KeyTrie.search_cons, KeyTrie.child, hget]
    exact hsearch

/-- The search of a merge is the overlay of the searches, but where the upper
trie ends the path. -/
theorem search_laid (a : Option (KeyTrie κ γ)) {b : KeyTrie κ γ}
    (hb : b.Keyed) {path : List κ} (hpath : ¬ PassesLeaf b path) :
    (mergeTrie a b).search path =
      laid (a.bind fun trie => trie.search path) (b.search path) := by
  induction path generalizing a b with
  | nil =>
      rw [KeyTrie.search_nil, KeyTrie.search_nil]
      cases a with
      | none => rfl
      | some a =>
          rw [Option.bind_some, KeyTrie.search_nil]
          rfl
  | cons key keys ih =>
      have hsplit : a.bind (fun trie => trie.search (key :: keys)) =
          (a.bind fun trie => trie.child key).bind
            fun trie => trie.search keys := by
        simp only [KeyTrie.search_cons, Option.bind_assoc]
      cases b with
      | mappableCommand cmd =>
          exact absurd ⟨[], key, keys, _, rfl, KeyTrie.search_nil _, trivial⟩
            hpath
      | sequence cmds =>
          exact absurd ⟨[], key, keys, _, rfl, KeyTrie.search_nil _, trivial⟩
            hpath
      | node b =>
          rw [KeyTrie.Keyed] at hb
          rw [KeyTrie.search_cons, child_mergeTrie a hb, hsplit,
            KeyTrie.search_cons, KeyTrie.child]
          cases hget : b.get key with
          | none => rfl
          | some trie =>
              exact ih _ (hb.get hget)
                fun hpass => hpath (passesLeaf_cons.mpr ⟨trie, hget, hpass⟩)

theorem search_passesLeaf {trie : KeyTrie κ γ} {path : List κ}
    (h : PassesLeaf trie path) : trie.search path = none := by
  obtain ⟨path', key, rest, leaf, rfl, hsearch, hleaf⟩ := h
  rw [KeyTrie.search_append, hsearch, Option.bind_some]
  cases leaf with
  | mappableCommand cmd => rfl
  | sequence cmds => rfl
  | node node => cases hleaf

/-- Nothing is bound behind a leaf that is laid over. -/
theorem search_laid_none (a : Option (KeyTrie κ γ)) {b : KeyTrie κ γ}
    (hb : b.Keyed) {path : List κ} (hpath : PassesLeaf b path) :
    (mergeTrie a b).search path = none := by
  induction path generalizing a b with
  | nil =>
      obtain ⟨path', key, rest, -, hnil, -⟩ := hpath
      exact absurd hnil.symm (List.append_ne_nil_of_right_ne_nil _ (by simp))
  | cons key keys ih =>
      cases b with
      | mappableCommand cmd => exact search_passesLeaf hpath
      | sequence cmds => exact search_passesLeaf hpath
      | node b =>
          rw [KeyTrie.Keyed] at hb
          obtain ⟨trie, hget, hpass⟩ := passesLeaf_cons.mp hpath
          rw [KeyTrie.search_cons, child_mergeTrie a hb, hget]
          exact ih _ (hb.get hget) hpass

-- == again

/-- Entries that are there already change nothing. -/
theorem mergeMap_of_get {map : Table κ (KeyTrie κ γ)}
    {entries : List (κ × KeyTrie κ γ)}
    (h : ∀ entry ∈ entries, ∃ trie, map.get entry.1 = some trie ∧
      mergeTrie (some trie) entry.2 = trie) : mergeMap map entries = map := by
  induction entries with
  | nil => rw [mergeMap]
  | cons entry entries ih =>
      obtain ⟨key, trie⟩ := entry
      obtain ⟨⟨old, hget, hmerge⟩, hrest⟩ := List.forall_mem_cons.mp h
      rw [mergeMap, hget, hmerge, Table.insert_get hget]
      exact ih hrest

theorem get_of_mem {entries : List (κ × KeyTrie κ γ)}
    (h : (entries.map Prod.fst).Nodup) {entry : κ × KeyTrie κ γ}
    (hmem : entry ∈ entries) :
    Table.get entries entry.1 = some entry.2 := by
  induction entries with
  | nil => cases hmem
  | cons e entries ih =>
      obtain ⟨hk, hnodup⟩ := List.nodup_cons.mp h
      rw [Table.get]
      rcases List.mem_cons.mp hmem with rfl | hmem
      · exact if_pos rfl
      · have hne : entry.1 ≠ e.1 := fun heq =>
          hk (heq ▸ List.mem_map_of_mem (f := Prod.fst) hmem)
        rw [if_neg hne]
        exact ih hnodup hmem

mutual

/-- A trie that is laid over itself, or over where it lies already. -/
theorem mergeTrie_again : ∀ trie : KeyTrie κ γ, trie.Keyed →
    mergeTrie (some trie) trie = trie ∧
      ∀ old, mergeTrie (some (mergeTrie old trie)) trie = mergeTrie old trie
  | .mappableCommand _, _ => ⟨rfl, fun _ => rfl⟩
  | .sequence _, _ => ⟨rfl, fun _ => rfl⟩
  | .node node, h => by
      rw [KeyTrie.Keyed] at h
      obtain ⟨hself, hagain⟩ := merge_again node h
      have hsame : mergeTrie (some (.node node)) (.node node) =
          .node node := by
        rw [mergeTrie, hself]
      refine ⟨hsame, fun old => ?_⟩
      cases old with
      | none => exact hsame
      | some old =>
          cases old with
          | mappableCommand cmd => exact hsame
          | sequence cmds => exact hsame
          | node old => rw [mergeTrie, mergeTrie, hagain]

theorem merge_again : ∀ node : KeyTrieNode κ γ, node.Keyed →
    node.merge node = node ∧
      ∀ old : KeyTrieNode κ γ, (old.merge node).merge node = old.merge node
  | ⟨name, map, isSticky, onEnter⟩, h => by
      rw [KeyTrieNode.Keyed] at h
      have hentries := entries_again map h.2
      refine ⟨?_, fun old => ?_⟩
      · rw [KeyTrieNode.merge, mergeMap_of_get fun entry hentry =>
          ⟨entry.2, get_of_mem h.1 hentry, (hentries entry hentry).1⟩,
          Option.or_self]
      · have hor : onEnter.or (onEnter.or old.onEnter) =
            onEnter.or old.onEnter := by
          rw [← Option.or_assoc, Option.or_self]
        have hmap : mergeMap (mergeMap old.map map) map =
            mergeMap old.map map := by
          refine mergeMap_of_get fun entry hentry => ?_
          refine ⟨_, ?_, (hentries entry hentry).2 (Table.get old.map entry.1)⟩
          rw [get_mergeMap _ h.1, get_of_mem h.1 hentry]
          rfl
        rw [KeyTrieNode.merge, KeyTrieNode.merge, hor, hmap]

theorem entries_again : ∀ map : List (κ × KeyTrie κ γ), EntriesKeyed map →
    ∀ entry ∈ map, mergeTrie (some entry.2) entry.2 = entry.2 ∧
      ∀ old, mergeTrie (some (mergeTrie old entry.2)) entry.2 =
        mergeTrie old entry.2
  | [], _ => nofun
  | (_, trie) :: rest, h => by
      rw [EntriesKeyed] at h
      exact List.forall_mem_cons.mpr
        ⟨mergeTrie_again trie h.1, entries_again rest h.2⟩

end

-- == the law

/-- A node that is laid over a trie that is no node stays as it is. -/
theorem over_node {a : Option (KeyTrie κ γ)} {b : KeyTrieNode κ γ}
    (h : ∀ node, a ≠ some (.node node)) :
    laid a (some (.node b)) = some (.node b) := by
  cases a with
  | none => rfl
  | some trie =>
      cases trie with
      | mappableCommand cmd => rfl
      | sequence cmds => rfl
      | node node => exact absurd rfl (h node)

/-- What the merge of a node into another binds, at every path, and that
merging it again changes nothing. -/
theorem merge_nodes_law (a b : KeyTrieNode κ γ) (hb : b.Keyed) :
    ∃ m, (KeyTrie.node a).mergeNodes (.node b) = .ok m ∧
      (∀ path leaf, (KeyTrie.node b).search path = some leaf →
        leaf.IsLeaf → m.search path = some leaf) ∧
      (∀ path x y, (KeyTrie.node a).search path = some (.node x) →
        (KeyTrie.node b).search path = some (.node y) →
        ∃ z, m.search path = some (.node z) ∧
          ∀ key, z.containsKey key ↔ x.containsKey key ∨ y.containsKey key) ∧
      (∀ path y, (KeyTrie.node b).search path = some (.node y) →
        (∀ x, (KeyTrie.node a).search path ≠ some (.node x)) →
        m.search path = some (.node y)) ∧
      (∀ path, (KeyTrie.node b).search path = none →
        (PassesLeaf (.node b) path → m.search path = none) ∧
        (¬ PassesLeaf (.node b) path →
          m.search path = (KeyTrie.node a).search path)) ∧
      m.mergeNodes (.node b) = .ok m := by
  have hkeyed : (KeyTrie.node b).Keyed := by
    rw [KeyTrie.Keyed]
    exact hb
  have hmerge : mergeTrie (some (.node a)) (.node b) = .node (a.merge b) := by
    rw [mergeTrie]
  have hover : ∀ path, ¬ PassesLeaf (.node b) path →
      (KeyTrie.node (a.merge b)).search path =
        laid ((KeyTrie.node a).search path) ((KeyTrie.node b).search path) :=
    fun path hpath => hmerge ▸ search_laid (some (.node a)) hkeyed hpath
  have hfound : ∀ path trie, (KeyTrie.node b).search path = some trie →
      (KeyTrie.node (a.merge b)).search path =
        laid ((KeyTrie.node a).search path) (some trie) := by
    intro path trie hsearch
    rw [← hsearch]
    refine hover path fun hpass => ?_
    rw [search_passesLeaf hpass] at hsearch
    cases hsearch
  refine ⟨.node (a.merge b), rfl, ?_, ?_, ?_, ?_, ?_⟩
  · intro path leaf hsearch hleaf
    rw [hfound path leaf hsearch]
    cases leaf with
    | mappableCommand cmd => rfl
    | sequence cmds => rfl
    | node node => cases hleaf
  · intro path x y hx hy
    refine ⟨x.merge y, ?_, x.containsKey_merge y⟩
    rw [hfound path _ hy, hx, laid, mergeTrie]
  · intro path y hy hx
    rw [hfound path _ hy]
    exact over_node hx
  · intro path hnone
    refine ⟨fun hpass => ?_, fun hpass => ?_⟩
    · exact hmerge ▸ search_laid_none (some (.node a)) hkeyed hpass
    · rw [hover path hpass, hnone]
      rfl
  · show Except.ok (KeyTrie.node ((a.merge b).merge b)) = _
    rw [(merge_again b hb).2 a]

/-- A prefix. -/
def gotoPrefix : KeyTrieNode Char Nat :=
  ⟨"", [('g', .node ⟨"goto", [('e', .mappableCommand 1)], false, none⟩)],
    false, none⟩

/-- A command for the same key. -/
def gotoCommand : KeyTrieNode Char Nat :=
  ⟨"", [('g', .mappableCommand 2)], false, none⟩

/-- A user's binding takes the place of a prefix. -/
theorem merge_nodes_law_leaf :
    ∃ m, (KeyTrie.node gotoPrefix).mergeNodes (.node gotoCommand) = .ok m ∧
      m.search ['g'] = some (.mappableCommand 2) := by
  obtain ⟨m, hm, hleaf, -⟩ := merge_nodes_law gotoPrefix gotoCommand
    (by simp [gotoCommand, KeyTrieNode.Keyed, EntriesKeyed, KeyTrie.Keyed])
  exact ⟨m, hm, hleaf _ _ rfl trivial⟩

end Zmax
