/-
zmax-term/src/keymap.rs: looking keys up in a keymap, with the overlay of
a language's major mode over it.

Keys and commands are parameters, as is the escape key. So are the map of
the mode that is in force and the language's overlay. An `IndexMap` is the
list of its entries.

Runs of `get_with_language`, with one keymap and one overlay.

`inForce` is what a whole path of keys is bound to: in the sticky node,
or in the base map with the overlay over it. A key that follows pending
keys is bound in the node that was answered exactly if the path with it is
bound in force (`isSome_inForce_snoc`), and `searchKey` answers with what
the path is bound to (`searchKey_cases`), but for one case: an overlay
prefix whose first key the base map does not have, followed by a key that
the overlay does not bind. Then the answer is `notFound` and the keys stay
pending. `Grounded` says that there is no such prefix.
-/
import Zmax.Basic
import Zmax.Lib.Reach
import Zmax.Lib.Table

namespace Zmax

mutual

inductive KeyTrie (κ γ : Type) where
  | mappableCommand (cmd : γ)
  | sequence (cmds : List γ)
  | node (node : KeyTrieNode κ γ)

structure KeyTrieNode (κ γ : Type) where
  name : String
  map : List (κ × KeyTrie κ γ)
  isSticky : Bool
  /-- The command run when this sticky node is entered. -/
  onEnter : Option γ

end

variable {κ γ : Type} [DecidableEq κ]

namespace KeyTrieNode

def get (self : KeyTrieNode κ γ) (key : κ) : Option (KeyTrie κ γ) :=
  Table.get self.map key

def containsKey (self : KeyTrieNode κ γ) (key : κ) : Bool :=
  (self.get key).isSome

end KeyTrieNode

mutual

/-- Merge another node in: its leaves and subnodes replace what is there
for their key, but two subnodes are merged. -/
def KeyTrieNode.merge (self : KeyTrieNode κ γ) :
    KeyTrieNode κ γ → KeyTrieNode κ γ
  | ⟨_, map, _, onEnter⟩ =>
      { self with
        onEnter := onEnter.or self.onEnter
        map := mergeMap self.map map }

/-- The loop over the other node's entries. -/
def mergeMap (map : Table κ (KeyTrie κ γ)) :
    List (κ × KeyTrie κ γ) → Table κ (KeyTrie κ γ)
  | [] => map
  | (key, trie) :: rest =>
      mergeMap (map.insert key (mergeTrie (map.get key) trie)) rest

/-- What stands for a key, of what there is and what comes. -/
def mergeTrie (old : Option (KeyTrie κ γ)) : KeyTrie κ γ → KeyTrie κ γ
  | .node otherNode =>
      match old with
      | some (.node node) => .node (node.merge otherNode)
      | _ => .node otherNode
  | .mappableCommand cmd => .mappableCommand cmd
  | .sequence cmds => .sequence cmds

end

/-- Merge another trie in; both have to be nodes. -/
def KeyTrie.mergeNodes (self other : KeyTrie κ γ) : Result (KeyTrie κ γ) :=
  match self, other with
  | .node self, .node other => .ok (.node (self.merge other))
  | _, _ => .error .unwrapNone

/-- Descend a trie following the given path of keys. -/
def KeyTrie.search : KeyTrie κ γ → List κ → Option (KeyTrie κ γ)
  | trie, [] => some trie
  | .node map, key :: keys =>
      match map.get key with
      | some trie => trie.search keys
      | none => none
  -- leaf encountered while keys left to process
  | .mappableCommand _, _ :: _ => none
  | .sequence _, _ :: _ => none

inductive KeymapResult (κ γ : Type) where
  /-- Needs more keys; these are the valid ones. -/
  | pending (node : KeyTrieNode κ γ)
  | matched (cmd : γ)
  | matchedSequence (cmds : List γ)
  /-- Key was not found in the root keymap. -/
  | notFound
  /-- Key is invalid in combination with previous keys: these and it. -/
  | cancelled (keys : List κ)

structure Keymaps (κ γ : Type) where
  /-- Pending keys, relative to a sticky node if one is in use. -/
  state : List κ
  sticky : Option (KeyTrieNode κ γ)

attribute [grind =] KeyTrieNode.merge mergeMap KeyTrie.search

namespace Keymaps

/-- Whether the base map leaves room for a prefix at a first key. -/
def opensPrefix : Option (KeyTrie κ γ) → Bool
  | some (.node _) | none => true
  | _ => false

/-- The prefix of an overlay, merged into the one the base map has. -/
def mergedPrefix (base : Option (KeyTrie κ γ))
    (overlayNode : KeyTrieNode κ γ) : KeyTrieNode κ γ :=
  match base with
  | some (.node baseNode) => baseNode.merge overlayNode
  | _ => overlayNode

/-- The answer of the overlay, if it has one. -/
def searchOverlay (self : Keymaps κ γ) (keymap overlay : KeyTrie κ γ)
    (key : κ) : Option (KeymapResult κ γ × Keymaps κ γ) :=
  let path := self.state ++ [key]
  match overlay.search path with
  | some (.mappableCommand cmd) =>
      some (.matched cmd, { self with state := [] })
  | some (.sequence cmds) =>
      some (.matchedSequence cmds, { self with state := [] })
  | some (.node overlayNode) =>
      let base := keymap.search path
      if 1 < path.length || opensPrefix base then
        some (.pending (mergedPrefix base overlayNode),
          { self with state := self.state ++ [key] })
      else none
  | none => none

/-- The trie that the pending keys are relative to. -/
def root (self : Keymaps κ γ) (keymap : KeyTrie κ γ) : KeyTrie κ γ :=
  match self.sticky with
  | some node => .node node
  | none => keymap

/-- The answer of the base map, or of the sticky node. -/
def searchBase (self : Keymaps κ γ) (keymap : KeyTrie κ γ) (key : κ) :
    KeymapResult κ γ × Keymaps κ γ :=
  let first := self.state.headD key
  match (self.root keymap).search [first] with
  | some (.mappableCommand cmd) => (.matched cmd, self)
  | some (.sequence cmds) => (.matchedSequence cmds, self)
  | none => (.notFound, self)
  | some (.node node) =>
      let state := self.state ++ [key]
      match (KeyTrie.node node).search (state.drop 1) with
      | some (.node map) =>
          if map.isSticky then
            -- latch the state and run its opening command
            match map.onEnter with
            | some cmd => (.matched cmd, ⟨[], some map⟩)
            | none => (.pending map, ⟨[], some map⟩)
          else (.pending map, { self with state := state })
      | some (.mappableCommand cmd) =>
          (.matched cmd, { self with state := [] })
      | some (.sequence cmds) =>
          (.matchedSequence cmds, { self with state := [] })
      | none => (.cancelled state, { self with state := [] })

/-- The search for a key that does not cancel: the overlay does not apply
inside a sticky node. -/
def searchKey (self : Keymaps κ γ) (keymap : KeyTrie κ γ)
    (overlay : Option (KeyTrie κ γ)) (key : κ) :
    KeymapResult κ γ × Keymaps κ γ :=
  let answer :=
    if self.sticky.isNone then
      overlay.bind fun overlay => self.searchOverlay keymap overlay key
    else none
  answer.getD (self.searchBase keymap key)

/-- `get_with_language`: escape cancels pending keys, or else leaves a
sticky node. -/
def getWithLanguage (esc : κ) (keymap : KeyTrie κ γ)
    (overlay : Option (KeyTrie κ γ)) (self : Keymaps κ γ) (key : κ) :
    KeymapResult κ γ × Keymaps κ γ :=
  if key = esc then
    if self.state.isEmpty then
      { self with sticky := none }.searchKey keymap overlay key
    else (.cancelled self.state, { self with state := [] })
  else self.searchKey keymap overlay key

end Keymaps

end Zmax

namespace Zmax

open Reach

variable {κ γ : Type} [DecidableEq κ]

-- == tries

namespace KeyTrie

/-- A command or a sequence. -/
def IsLeaf : KeyTrie κ γ → Prop
  | .mappableCommand _ | .sequence _ => True
  | .node _ => False

/-- What a path of keys is bound to, one part after the other. -/
theorem search_append (trie : KeyTrie κ γ) (path path' : List κ) :
    trie.search (path ++ path') =
      (trie.search path).bind fun trie => trie.search path' := by
  induction path generalizing trie with
  | nil => cases trie <;> rfl
  | cons key path ih =>
      cases trie with
      | mappableCommand cmd => rfl
      | sequence cmds => rfl
      | node map =>
          rw [List.cons_append, search, search]
          cases map.get key with
          | none => rfl
          | some trie => exact ih trie

theorem search_nil (trie : KeyTrie κ γ) : trie.search [] = some trie := by
  cases trie <;> rfl

theorem search_single (node : KeyTrieNode κ γ) (key : κ) :
    (KeyTrie.node node).search [key] = node.get key := by
  rw [search]
  cases node.get key with
  | none => rfl
  | some trie => exact search_nil trie

variable {trie : KeyTrie κ γ} {path : List κ} {key : κ}

/-- On the way to a node there are nodes. -/
theorem exists_node_of_append {path' : List κ} {node : KeyTrieNode κ γ}
    (h : trie.search (path ++ path') = some (.node node)) :
    ∃ node', trie.search path = some (.node node') := by
  rw [search_append] at h
  cases hpath : trie.search path with
  | none =>
      rw [hpath] at h
      cases h
  | some t =>
      rw [hpath] at h
      cases t with
      | node node' => exact ⟨node', rfl⟩
      | mappableCommand cmd => cases path' <;> cases h
      | sequence cmds => cases path' <;> cases h

/-- Below a node there is what it binds. -/
theorem search_snoc {node : KeyTrieNode κ γ}
    (h : trie.search path = some (.node node)) (key : κ) :
    trie.search (path ++ [key]) = node.get key := by
  rw [search_append, h]
  exact search_single node key

/-- Below nothing there is nothing. -/
theorem search_snoc_none (h : trie.search path = none) (key : κ) :
    trie.search (path ++ [key]) = none := by
  rw [search_append, h]
  rfl

/-- Below a leaf there is nothing. -/
theorem search_snoc_leaf {leaf : KeyTrie κ γ}
    (h : trie.search path = some leaf) (hleaf : leaf.IsLeaf) (key : κ) :
    trie.search (path ++ [key]) = none := by
  rw [search_append, h]
  cases leaf with
  | node node => exact absurd hleaf id
  | mappableCommand cmd => rfl
  | sequence cmds => rfl

end KeyTrie

-- == merging

/-- A merge keeps the keys of both. -/
theorem isSome_get_mergeMap (map : Table κ (KeyTrie κ γ))
    (entries : List (κ × KeyTrie κ γ)) (key : κ) :
    ((mergeMap map entries).get key).isSome ↔
      (map.get key).isSome ∨ (Table.get entries key).isSome := by
  induction entries generalizing map with
  | nil =>
      rw [mergeMap]
      exact ⟨.inl, fun h => h.elim id fun h => by cases h⟩
  | cons entry entries ih =>
      obtain ⟨k, trie⟩ := entry
      rw [mergeMap, ih, Table.get]
      by_cases hk : key = k
      · rw [hk, Table.get_insert_self, if_pos rfl]
        simp
      · rw [Table.get_insert_ne hk, if_neg hk]

namespace KeyTrieNode

theorem containsKey_merge (self other : KeyTrieNode κ γ) (key : κ) :
    (self.merge other).containsKey key ↔
      self.containsKey key ∨ other.containsKey key := by
  obtain ⟨name, map, isSticky, onEnter⟩ := other
  rw [merge]
  exact isSome_get_mergeMap self.map map key

end KeyTrieNode

namespace Keymaps

/-- The merged prefix binds what the overlay's node binds, or the base
map's, if that has one. -/
theorem containsKey_mergedPrefix {keymap : KeyTrie κ γ} {path : List κ}
    (overlayNode : KeyTrieNode κ γ) (key : κ) :
    (mergedPrefix (keymap.search path) overlayNode).containsKey key ↔
      overlayNode.containsKey key ∨
        (keymap.search (path ++ [key])).isSome := by
  unfold mergedPrefix
  cases hbase : keymap.search path with
  | none =>
      rw [KeyTrie.search_snoc_none hbase]
      simp
  | some trie =>
      cases trie with
      | node baseNode =>
          rw [KeyTrie.search_snoc hbase]
          dsimp only
          rw [KeyTrieNode.containsKey_merge, or_comm]
          rfl
      | mappableCommand cmd =>
          rw [KeyTrie.search_snoc_leaf hbase trivial]
          simp
      | sequence cmds =>
          rw [KeyTrie.search_snoc_leaf hbase trivial]
          simp

-- == in force

/-- What a path is bound to in the base map with an overlay over it. -/
def overlaid (keymap overlay : KeyTrie κ γ) (path : List κ) :
    Option (KeyTrie κ γ) :=
  match overlay.search path with
  | some (.node overlayNode) =>
      if 1 < path.length || opensPrefix (keymap.search path) then
        some (.node (mergedPrefix (keymap.search path) overlayNode))
      else keymap.search path
  | some leaf => some leaf
  | none => keymap.search path

/-- What a path of keys is bound to. -/
def inForce (keymap : KeyTrie κ γ) (overlay : Option (KeyTrie κ γ))
    (self : Keymaps κ γ) (path : List κ) : Option (KeyTrie κ γ) :=
  match self.sticky, overlay with
  | some node, _ => (KeyTrie.node node).search path
  | none, some overlay => overlaid keymap overlay path
  | none, none => keymap.search path

variable {keymap : KeyTrie κ γ} {overlay : Option (KeyTrie κ γ)}
  {s s' : Keymaps κ γ}

/-- What a path that goes on behind an overlaid node is bound to. -/
theorem isSome_overlaid_snoc {o : KeyTrie κ γ} {path : List κ}
    {node : KeyTrieNode κ γ} (hne : path ≠ [])
    (h : overlaid keymap o path = some (.node node)) (key : κ) :
    (overlaid keymap o (path ++ [key])).isSome ↔ node.containsKey key := by
  have hpos := List.length_pos_iff.mpr hne
  unfold overlaid at h
  split at h
  · next overlayNode hover =>
      split at h
      · -- the overlay's prefix, merged with the base map's
        injection h with h
        injection h with h
        subst h
        rw [containsKey_mergedPrefix]
        unfold overlaid
        rw [KeyTrie.search_snoc hover]
        unfold KeyTrieNode.containsKey
        cases overlayNode.get key with
        | none => simp
        | some trie => cases trie <;> simp [hpos]
      · next hclosed =>
          -- the base map has a leaf there
          rw [h] at hclosed
          simp [opensPrefix] at hclosed
  · next leaf hleaf hover =>
      injection h with h
      exact absurd h (hleaf node)
  · next hover =>
      unfold overlaid
      rw [KeyTrie.search_snoc_none hover, KeyTrie.search_snoc h]
      rfl

/-- A key behind pending keys, or in a sticky node, is bound in force
exactly if the node they lead to binds it. -/
theorem isSome_inForce_snoc {node : KeyTrieNode κ γ}
    (hne : s.sticky = none → s.state ≠ [])
    (h : inForce keymap overlay s s.state = some (.node node)) (key : κ) :
    (inForce keymap overlay s (s.state ++ [key])).isSome ↔
      node.containsKey key := by
  unfold inForce at h ⊢
  split at h
  · rw [KeyTrie.search_snoc h]
    rfl
  · next hsticky => exact isSome_overlaid_snoc (hne hsticky) h key
  · rw [KeyTrie.search_snoc h]
    rfl

-- == one key

end Keymaps

namespace KeymapResult

def IsPending : KeymapResult κ γ → Prop
  | .pending _ => True
  | _ => False

def IsMatch : KeymapResult κ γ → Prop
  | .matched _ | .matchedSequence _ => True
  | _ => False

end KeymapResult

namespace Keymaps

variable {keymap : KeyTrie κ γ} {overlay : Option (KeyTrie κ γ)}
  {s s' : Keymaps κ γ}

/-- Pending keys lead to a node, and the first of them is no command of
the base map. -/
structure Ready (esc : κ) (keymap : KeyTrie κ γ)
    (overlay : Option (KeyTrie κ γ)) (s : Keymaps κ γ) : Prop where
  unescaped : esc ∉ s.state.drop 1
  waiting : s.state ≠ [] →
    ∃ node, inForce keymap overlay s s.state = some (.node node)
  first : ∀ key ∈ s.state.head?, ∀ leaf,
    (s.root keymap).search [key] = some leaf → ¬ leaf.IsLeaf

/-- What can come of a key: the answer, and the keymaps then. -/
inductive Answer (keymap : KeyTrie κ γ) (overlay : Option (KeyTrie κ γ))
    (s : Keymaps κ γ) (key : κ) : KeymapResult κ γ × Keymaps κ γ → Prop
  | pending (node : KeyTrieNode κ γ) :
      inForce keymap overlay s (s.state ++ [key]) = some (.node node) →
      (∀ first ∈ (s.state ++ [key]).head?, ∀ leaf,
        (s.root keymap).search [first] = some leaf → ¬ leaf.IsLeaf) →
      Answer keymap overlay s key
        (.pending node, { s with state := s.state ++ [key] })
  | latched (r : KeymapResult κ γ) (node : KeyTrieNode κ γ) :
      inForce keymap overlay s (s.state ++ [key]) = some (.node node) →
      (r = .pending node ∨ r.IsMatch) →
      Answer keymap overlay s key (r, ⟨[], some node⟩)
  | matched (r : KeymapResult κ γ) (leaf : KeyTrie κ γ) :
      inForce keymap overlay s (s.state ++ [key]) = some leaf →
      r.IsMatch → Answer keymap overlay s key (r, { s with state := [] })
  | notFound :
      inForce keymap overlay s (s.state ++ [key]) = none → s.state = [] →
      Answer keymap overlay s key (.notFound, s)
  | cancelled :
      inForce keymap overlay s (s.state ++ [key]) = none → s.state ≠ [] →
      Answer keymap overlay s key
        (.cancelled (s.state ++ [key]), { s with state := [] })
  /-- The keys stay pending. -/
  | stranded (first : κ) :
      inForce keymap overlay s (s.state ++ [key]) = none →
      first ∈ s.state.head? → s.sticky = none →
      keymap.search [first] = none →
      Answer keymap overlay s key (.notFound, s)

/-- The overlay has no say inside a sticky node. -/
theorem inForce_of_sticky {node : KeyTrieNode κ γ}
    (h : s.sticky = some node) (path : List κ) :
    inForce keymap overlay s path = (s.root keymap).search path := by
  unfold inForce root
  rw [h]

omit [DecidableEq κ] in
/-- A path is its first key and the rest. -/
theorem path_eq (state : List κ) (key : κ) :
    state ++ [key] = [state.headD key] ++ (state ++ [key]).drop 1 := by
  cases state <;> rfl

variable {esc key : κ}

/-- A leaf answers, where its key is the first one. -/
theorem Answer.of_first (hs : s.Ready esc keymap overlay)
    {leaf : KeyTrie κ γ} {r : KeymapResult κ γ}
    (hroot : inForce keymap overlay s (s.state ++ [key]) =
      (s.root keymap).search (s.state ++ [key]))
    (h : (s.root keymap).search [s.state.headD key] = some leaf)
    (hleaf : leaf.IsLeaf) (hr : r.IsMatch) :
    Answer keymap overlay s key (r, s) := by
  obtain ⟨state, sticky⟩ := s
  cases state with
  | nil => exact .matched r leaf (hroot.trans h) hr
  | cons first rest => exact absurd hleaf (hs.first first rfl leaf h)

/-- Nothing is found, where a first key is not bound. -/
theorem Answer.of_none (hs : s.Ready esc keymap overlay)
    (hroot : inForce keymap overlay s (s.state ++ [key]) =
      (s.root keymap).search (s.state ++ [key]))
    (h : (s.root keymap).search [s.state.headD key] = none) :
    Answer keymap overlay s key (.notFound, s) := by
  have hnone : inForce keymap overlay s (s.state ++ [key]) = none := by
    rw [hroot, path_eq, KeyTrie.search_append, h]
    rfl
  by_cases hnil : s.state = []
  · exact .notFound hnone hnil
  · have hhead : s.state.headD key ∈ s.state.head? := by
      cases hstate : s.state with
      | nil => exact absurd hstate hnil
      | cons first rest => exact rfl
    cases hsticky : s.sticky with
    | none =>
        unfold root at h
        rw [hsticky] at h
        exact .stranded _ hnone hhead hsticky h
    | some node =>
        -- the pending keys lead somewhere in the sticky node
        obtain ⟨map, hmap⟩ := hs.waiting hnil
        rw [inForce_of_sticky hsticky] at hmap
        cases hstate : s.state with
        | nil => exact absurd hstate hnil
        | cons first rest =>
            rw [hstate] at h hmap
            rw [← List.singleton_append, KeyTrie.search_append] at hmap
            rw [show (first :: rest).headD key = first from rfl] at h
            rw [h] at hmap
            cases hmap

/-- Where the overlay has no say, the base map answers. -/
theorem searchBase_cases (hs : s.Ready esc keymap overlay)
    (hroot : inForce keymap overlay s (s.state ++ [key]) =
      (s.root keymap).search (s.state ++ [key])) :
    Answer keymap overlay s key (s.searchBase keymap key) := by
  unfold searchBase
  dsimp only
  split
  · next cmd h => exact .of_first hs hroot h trivial trivial
  · next cmds h => exact .of_first hs hroot h trivial trivial
  · next h => exact .of_none hs hroot h
  · next node h =>
      have hpath : inForce keymap overlay s (s.state ++ [key]) =
          (KeyTrie.node node).search ((s.state ++ [key]).drop 1) := by
        rw [hroot]
        conv => lhs; rw [path_eq]
        rw [KeyTrie.search_append, h]
        rfl
      split
      · next map hmap =>
          have hmap := hpath.trans hmap
          split
          · split
            · exact .latched _ map hmap (.inr trivial)
            · exact .latched _ map hmap (.inl rfl)
          · refine .pending map hmap fun first hfirst leaf hleaf => ?_
            obtain rfl : s.state.headD key = first := by
              rw [path_eq] at hfirst
              exact Option.some.inj hfirst
            rw [h] at hleaf
            injection hleaf with hleaf
            exact hleaf ▸ id
      · next cmd hcmd => exact .matched _ _ (hpath.trans hcmd) trivial
      · next cmds hcmds => exact .matched _ _ (hpath.trans hcmds) trivial
      · next hnone =>
          have hne : s.state ≠ [] := by
            intro hnil
            rw [hnil] at hnone
            cases hnone
          exact .cancelled (hpath.trans hnone) hne

/-- The overlay answers with what it has for the path; a prefix only
where the base map has no command. -/
theorem searchOverlay_cases {o : KeyTrie κ γ}
    (hs : s.Ready esc keymap (some o)) (hsticky : s.sticky = none) (key : κ) :
    (∃ answer, s.searchOverlay keymap o key = some answer ∧
        Answer keymap (some o) s key answer) ∨
      (s.searchOverlay keymap o key = none ∧
        overlaid keymap o (s.state ++ [key]) =
          keymap.search (s.state ++ [key])) := by
  have hforce : inForce keymap (some o) s (s.state ++ [key]) =
      overlaid keymap o (s.state ++ [key]) := by
    unfold inForce
    rw [hsticky]
  have hroot : s.root keymap = keymap := by
    unfold root
    rw [hsticky]
  unfold searchOverlay
  dsimp only
  split
  · next cmd h =>
      refine .inl ⟨_, rfl, .matched _ (.mappableCommand cmd) ?_ trivial⟩
      rw [hforce, overlaid, h]
  · next cmds h =>
      refine .inl ⟨_, rfl, .matched _ (.sequence cmds) ?_ trivial⟩
      rw [hforce, overlaid, h]
  · next overlayNode h =>
      split
      · next hopens =>
          refine .inl ⟨_, rfl, .pending _ ?_ fun first hfirst leaf hleaf => ?_⟩
          · rw [hforce, overlaid, h]
            exact if_pos hopens
          · cases hstate : s.state with
            | cons f rest =>
                refine hs.first first ?_ leaf hleaf
                rw [hstate] at hfirst ⊢
                exact hfirst
            | nil =>
                -- the first key: the base map has a prefix or nothing
                rw [hstate] at hfirst hopens
                obtain rfl : key = first := Option.some.inj hfirst
                rw [hroot] at hleaf
                rw [List.nil_append, hleaf] at hopens
                cases leaf with
                | node node => exact id
                | mappableCommand cmd => simp [opensPrefix] at hopens
                | sequence cmds => simp [opensPrefix] at hopens
      · next hclosed =>
          refine .inr ⟨rfl, ?_⟩
          rw [overlaid, h]
          exact if_neg hclosed
  · next h =>
      refine .inr ⟨rfl, ?_⟩
      rw [overlaid, h]

/-- A key that does not cancel is answered with what the path with it is
bound to, unless the keys are stranded. -/
theorem searchKey_cases (hs : s.Ready esc keymap overlay) (key : κ) :
    Answer keymap overlay s key (s.searchKey keymap overlay key) := by
  unfold searchKey
  cases hsticky : s.sticky with
  | some node => exact searchBase_cases hs (inForce_of_sticky hsticky _)
  | none =>
      have hroot : s.root keymap = keymap := by
        unfold root
        rw [hsticky]
      cases overlay with
      | none =>
          refine searchBase_cases hs ?_
          unfold inForce
          rw [hsticky, hroot]
      | some o =>
          rcases searchOverlay_cases hs hsticky key with
            ⟨answer, hx, hanswer⟩ | ⟨hx, hbase⟩
          · dsimp only [Option.isNone_none, if_true, Option.bind_some]
            rw [if_pos rfl, hx]
            exact hanswer
          · dsimp only [Option.isNone_none, if_true, Option.bind_some]
            rw [if_pos rfl, hx]
            refine searchBase_cases hs ?_
            unfold inForce
            rw [hsticky, hroot]
            exact hbase

-- == runs

/-- No prefix opens in the overlay at a first key that the base map does
not have; or else every key is bound on the way. -/
def Grounded (esc : κ) (keymap : KeyTrie κ γ)
    (overlay : Option (KeyTrie κ γ)) : Prop :=
  ∀ o ∈ overlay, ∀ first rest node, keymap.search [first] = none →
    esc ∉ rest → o.search (first :: rest) = some (.node node) →
    ∀ key, key ≠ esc → node.containsKey key

/-- The answer to a key behind pending ones, where this node was answered
to them. -/
def Follows (s : Keymaps κ γ) (node : KeyTrieNode κ γ) (key : κ)
    (r : KeymapResult κ γ) : Prop :=
  (r.IsPending ∨ r.IsMatch ↔ node.containsKey key) ∧
    (node.containsKey key = false →
      r = if s.state.isEmpty then .notFound else .cancelled (s.state ++ [key]))

/-- With such an overlay no keys are stranded. -/
theorem not_stranded (hs : s.Ready esc keymap overlay)
    (hgrounded : Grounded esc keymap overlay) {first : κ} (hkey : key ≠ esc)
    (hnone : inForce keymap overlay s (s.state ++ [key]) = none)
    (hfirst : first ∈ s.state.head?) (hsticky : s.sticky = none)
    (hbase : keymap.search [first] = none) : False := by
  obtain ⟨state, sticky⟩ := s
  dsimp only at hsticky hfirst hnone
  subst hsticky
  cases state with
  | nil => cases hfirst
  | cons f rest =>
      obtain rfl : f = first := Option.some.inj hfirst
      obtain ⟨node, hnode⟩ := hs.waiting (List.cons_ne_nil _ _)
      have hpath : keymap.search (f :: rest) = none := by
        rw [← List.singleton_append, KeyTrie.search_append, hbase]
        rfl
      cases overlay with
      | none =>
          have hnode : keymap.search (f :: rest) = some (.node node) := hnode
          rw [hpath] at hnode
          cases hnode
      | some o =>
          have hnode : overlaid keymap o (f :: rest) = some (.node node) :=
            hnode
          have hnone : overlaid keymap o (f :: rest ++ [key]) = none := hnone
          have hoverlay : ∃ map, o.search (f :: rest) = some (.node map) := by
            unfold overlaid at hnode
            split at hnode
            · next map h => exact ⟨map, h⟩
            · next leaf hleaf h =>
                injection hnode with hnode
                exact absurd hnode (hleaf node)
            · rw [hpath] at hnode
              cases hnode
          obtain ⟨map, hmap⟩ := hoverlay
          have hbound := hgrounded o rfl f rest map hbase hs.unescaped hmap
            key hkey
          have hsome := (@isSome_overlaid_snoc κ γ _ keymap o (f :: rest) node
            (List.cons_ne_nil _ _) hnode key)
          rw [hnone] at hsome
          refine absurd (hsome.mpr ?_) (by simp)
          unfold overlaid at hnode
          rw [hmap] at hnode
          dsimp only at hnode
          split at hnode
          · injection hnode with hnode
            injection hnode with hnode
            rw [← hnode, containsKey_mergedPrefix]
            exact .inl hbound
          · rw [hpath] at hnode
            cases hnode

/-- An answer behind pending keys is the one the node promises. -/
theorem Answer.follows (hs : s.Ready esc keymap overlay)
    (hgrounded : Grounded esc keymap overlay) {node : KeyTrieNode κ γ}
    (hnode : inForce keymap overlay s s.state = some (.node node))
    (hne : s.sticky = none → s.state ≠ []) (hkey : key ≠ esc)
    {answer : KeymapResult κ γ × Keymaps κ γ}
    (h : Answer keymap overlay s key answer) :
    s.Follows node key answer.1 := by
  have hbound := isSome_inForce_snoc hne hnode key
  -- bound keys are answered with what they are bound to
  have hsome : ∀ {trie : KeyTrie κ γ} {r : KeymapResult κ γ},
      inForce keymap overlay s (s.state ++ [key]) = some trie →
      (r.IsPending ∨ r.IsMatch) → s.Follows node key r := by
    intro trie r htrie hr
    rw [htrie] at hbound
    have hcontains := hbound.mp rfl
    refine ⟨⟨fun _ => hcontains, fun _ => hr⟩, fun hno => ?_⟩
    rw [hcontains] at hno
    cases hno
  have hnone : ∀ {r : KeymapResult κ γ},
      inForce keymap overlay s (s.state ++ [key]) = none →
      ¬ (r.IsPending ∨ r.IsMatch) →
      (r = if s.state.isEmpty then .notFound
        else .cancelled (s.state ++ [key])) → s.Follows node key r := by
    intro r hnone hr hanswer
    rw [hnone] at hbound
    refine ⟨⟨fun h => absurd h hr, fun h => ?_⟩, fun _ => hanswer⟩
    cases hbound.mpr h
  cases h with
  | pending map hmap _ => exact hsome hmap (.inl trivial)
  | latched r map hmap hr =>
      refine hsome hmap ?_
      rcases hr with rfl | hr
      · exact .inl trivial
      · exact .inr hr
  | matched r leaf hleaf hr => exact hsome hleaf (.inr hr)
  | notFound hno hnil =>
      refine hnone hno (fun h => h.elim id id) ?_
      rw [hnil]
      rfl
  | cancelled hno hstate =>
      refine hnone hno (fun h => h.elim id id) ?_
      rw [if_neg (by simpa using hstate)]
  | stranded first hno hfirst hsticky hbase =>
      exact (not_stranded hs hgrounded hkey hno hfirst hsticky hbase).elim

/-- The keymaps after some keys, and the last answer. -/
structure Typing (κ γ : Type) where
  keymaps : Keymaps κ γ
  last : Option (KeymapResult κ γ)

namespace Typing

/-- No key yet. -/
def start : Typing κ γ := ⟨⟨[], none⟩, none⟩

/-- One key. -/
def press (esc : κ) (keymap : KeyTrie κ γ) (overlay : Option (KeyTrie κ γ))
    (t : Typing κ γ) (key : κ) : Result (Typing κ γ) :=
  let answer := t.keymaps.getWithLanguage esc keymap overlay key
  .ok ⟨answer.2, some answer.1⟩

/-- What is promised after every key. -/
structure Law (esc : κ) (keymap : KeyTrie κ γ)
    (overlay : Option (KeyTrie κ γ)) (t : Typing κ γ) : Prop where
  settled : ∀ r ∈ t.last, ¬ r.IsPending → t.keymaps.state = []
  next : ∀ node, .pending node ∈ t.last → ∀ key, key ≠ esc →
    t.keymaps.Follows node key
      (t.keymaps.getWithLanguage esc keymap overlay key).1

/-- The invariant: the last answer is about the pending keys. -/
structure Sound (esc : κ) (keymap : KeyTrie κ γ)
    (overlay : Option (KeyTrie κ γ)) (t : Typing κ γ) : Prop where
  ready : t.keymaps.Ready esc keymap overlay
  settled : ∀ r ∈ t.last, ¬ r.IsPending → t.keymaps.state = []
  awaited : ∀ node, .pending node ∈ t.last →
    inForce keymap overlay t.keymaps t.keymaps.state = some (.node node)
      ∧ (t.keymaps.sticky = none → t.keymaps.state ≠ [])

variable {esc : κ} {t t' : Typing κ γ}

theorem ready_nil (sticky : Option (KeyTrieNode κ γ)) :
    Ready esc keymap overlay ⟨[], sticky⟩ := by
  refine ⟨by simp, fun h => absurd rfl h, ?_⟩
  intro key hkey
  cases hkey

/-- Where nothing is pending, an answer that is not pending settles. -/
theorem Sound.of_nil {r : KeymapResult κ γ} (hr : ¬ r.IsPending)
    (sticky : Option (KeyTrieNode κ γ)) :
    Sound esc keymap overlay ⟨⟨[], sticky⟩, some r⟩ := by
  refine ⟨ready_nil sticky, fun _ _ _ => rfl, fun node hnode => ?_⟩
  obtain rfl : r = .pending node := Option.some.inj hnode
  exact absurd trivial hr

variable {key : κ} {node : KeyTrieNode κ γ} {rest : List κ}

/-- Whatever comes of a key, the invariant holds. -/
theorem Sound.of_answer (hs : s.Ready esc keymap overlay)
    (hgrounded : Grounded esc keymap overlay)
    (hkey : key = esc → s.state = [])
    {answer : KeymapResult κ γ × Keymaps κ γ}
    (h : Answer keymap overlay s key answer) :
    Sound esc keymap overlay ⟨answer.2, some answer.1⟩ := by
  cases h with
  | pending node hnode hfirst =>
      refine ⟨⟨?_, fun _ => ⟨node, hnode⟩, hfirst⟩, ?_, ?_⟩
      · have hunescaped := hs.unescaped
        show esc ∉ (s.state ++ [key]).drop 1
        cases hstate : s.state with
        | nil => simp
        | cons first rest =>
            rw [hstate] at hunescaped
            intro hmem
            rcases List.mem_append.mp hmem with hmem | hmem
            · exact hunescaped hmem
            · rw [hkey (List.mem_singleton.mp hmem).symm] at hstate
              cases hstate
      · intro r hr hno
        obtain rfl := Option.some.inj hr
        exact absurd trivial hno
      · intro node' hnode'
        injection Option.some.inj hnode' with hsame
        subst hsame
        exact ⟨hnode, fun _ => by simp⟩
  | latched r node hnode hr =>
      refine ⟨ready_nil _, fun _ _ _ => rfl, fun node' hnode' => ?_⟩
      obtain rfl : r = .pending node' := Option.some.inj hnode'
      rcases hr with hr | hr
      · injection hr with hr
        subst hr
        exact ⟨KeyTrie.search_nil _, fun h => by cases h⟩
      · exact absurd hr id
  | matched r leaf hleaf hr =>
      refine .of_nil (fun hpending => ?_) _
      cases r with
      | pending node => exact hr
      | matched cmd => exact hpending
      | matchedSequence cmds => exact hpending
      | notFound => exact hpending
      | cancelled keys => exact hpending
  | notFound hnone hnil =>
      obtain ⟨state, sticky⟩ := s
      dsimp only at hnil
      subst hnil
      exact .of_nil id sticky
  | cancelled hnone hne => exact .of_nil id _
  | stranded first hnone hfirst hsticky hbase =>
      refine (not_stranded hs hgrounded ?_ hnone hfirst hsticky hbase).elim
      intro hesc
      rw [hkey hesc] at hfirst
      cases hfirst

theorem Sound.press (h : t.Sound esc keymap overlay)
    (hgrounded : Grounded esc keymap overlay)
    (hx : t.press esc keymap overlay key = .ok t') :
    t'.Sound esc keymap overlay := by
  injection hx with hx
  subst hx
  unfold getWithLanguage
  split
  · split
    · next hnil =>
        -- escape leaves a sticky node, and is then a key like others
        have hnil : t.keymaps.state = [] := List.isEmpty_iff.mp hnil
        have hready : Ready esc keymap overlay
            ⟨t.keymaps.state, none⟩ := by
          rw [hnil]
          exact ready_nil none
        exact .of_answer hready hgrounded (fun _ => hnil)
          (searchKey_cases hready key)
    · exact .of_nil id _
  · next hkey =>
      exact .of_answer h.ready hgrounded (fun hesc => absurd hesc hkey)
        (searchKey_cases h.ready _)

theorem Sound.law (h : t.Sound esc keymap overlay)
    (hgrounded : Grounded esc keymap overlay) :
    t.Law esc keymap overlay := by
  refine ⟨h.settled, fun node hnode key hkey => ?_⟩
  obtain ⟨hforce, hne⟩ := h.awaited node hnode
  unfold getWithLanguage
  rw [if_neg hkey]
  exact (searchKey_cases h.ready key).follows h.ready hgrounded hforce hne
    hkey

variable {o : KeyTrie κ γ} {first : κ}

/-- A prefix of the overlay opens, over nothing in the base map. -/
theorem press_prefix (hbase : keymap.search [first] = none) {state : List κ}
    (hpath : state ++ [key] = first :: rest) (hkey : key = esc → state = [])
    (hnode : o.search (state ++ [key]) = some (.node node))
    (r : Option (KeymapResult κ γ)) :
    ∃ r', press esc keymap (some o) ⟨⟨state, none⟩, r⟩ key =
      .ok ⟨⟨state ++ [key], none⟩, r'⟩ := by
  have hopens : 1 < (state ++ [key]).length ∨
      opensPrefix (keymap.search (state ++ [key])) = true := by
    cases state with
    | nil =>
        obtain ⟨rfl, -⟩ := List.cons.inj hpath
        right
        rw [List.nil_append, hbase]
        rfl
    | cons f rest =>
        left
        simp
  have hsearch : (⟨state, none⟩ : Keymaps κ γ).searchKey keymap (some o) key =
      (.pending (mergedPrefix (keymap.search (state ++ [key])) node),
        ⟨state ++ [key], none⟩) := by
    unfold searchKey searchOverlay
    dsimp only [Option.isNone_none, if_true, Option.bind_some]
    rw [if_pos rfl, hnode]
    dsimp only
    rw [if_pos (by simpa using hopens)]
    rfl
  refine ⟨some (.pending
    (mergedPrefix (keymap.search (state ++ [key])) node)), ?_⟩
  unfold press getWithLanguage
  by_cases hesc : key = esc
  · rw [if_pos hesc, hkey hesc, List.isEmpty_nil, if_pos rfl]
    rw [hkey hesc] at hsearch
    rw [hsearch]
  · rw [if_neg hesc, hsearch]

/-- The overlay's prefixes open all the way. -/
theorem reaches_prefix (hbase : keymap.search [first] = none)
    {path state : List κ} (hpath : state ++ path = first :: rest)
    (hesc : esc ∉ path.drop (1 - state.length))
    (hnode : o.search (state ++ path) = some (.node node))
    {r : Option (KeymapResult κ γ)}
    (hr : Reaches (fun _ _ => True) (press esc keymap (some o)) start
      ⟨⟨state, none⟩, r⟩) :
    ∃ r', Reaches (fun _ _ => True) (press esc keymap (some o)) start
      ⟨⟨first :: rest, none⟩, r'⟩ := by
  induction path generalizing state r with
  | nil =>
      rw [List.append_nil] at hpath
      rw [← hpath]
      exact ⟨r, hr⟩
  | cons key path ih =>
      have happend : state ++ [key] ++ path = first :: rest := by
        rw [List.append_assoc]
        exact hpath
      obtain ⟨node', hnode'⟩ := KeyTrie.exists_node_of_append
        (show o.search (state ++ [key] ++ path) = some (.node node) by
          rw [happend, ← hpath]
          exact hnode)
      obtain ⟨rest', hrest'⟩ : ∃ rest', state ++ [key] = first :: rest' := by
        cases state with
        | nil =>
            obtain ⟨rfl, -⟩ := List.cons.inj hpath
            exact ⟨[], rfl⟩
        | cons f state =>
            obtain ⟨rfl, -⟩ := List.cons.inj hpath
            exact ⟨state ++ [key], rfl⟩
      have hkey : key = esc → state = [] := by
        intro hkey
        by_contra hne
        refine hesc ?_
        have := List.length_pos_iff.mpr hne
        rw [show 1 - state.length = 0 from by omega, hkey]
        exact List.mem_cons_self
      obtain ⟨r', hpress⟩ := press_prefix hbase hrest' hkey hnode' r
      refine ih happend ?_ ?_ (.step key hr trivial hpress)
      · rw [List.length_append, List.length_singleton,
          show 1 - (state.length + 1) = 0 from by omega, List.drop_zero]
        intro hmem
        refine hesc ?_
        cases state with
        | nil => exact hmem
        | cons f state =>
            rw [List.length_cons,
              show 1 - (state.length + 1) = 0 from by omega]
            exact List.mem_cons_of_mem _ hmem
      · rw [happend, ← hpath]
        exact hnode

/-- A key that the overlay does not bind there strands the others. -/
theorem press_stranded (hbase : keymap.search [first] = none)
    (hnode : o.search (first :: rest) = some (.node node)) (hkey : key ≠ esc)
    (hno : node.containsKey key = false) (r : Option (KeymapResult κ γ)) :
    press esc keymap (some o) ⟨⟨first :: rest, none⟩, r⟩ key =
      .ok ⟨⟨first :: rest, none⟩, some .notFound⟩ := by
  have hnone : o.search (first :: rest ++ [key]) = none := by
    rw [KeyTrie.search_snoc hnode]
    exact Option.isNone_iff_eq_none.mp (by
      rw [← Option.not_isSome]
      unfold KeyTrieNode.containsKey at hno
      rw [hno]
      rfl)
  unfold press getWithLanguage
  rw [if_neg hkey]
  have hsearch : (⟨first :: rest, none⟩ : Keymaps κ γ).searchKey keymap
      (some o) key = (.notFound, ⟨first :: rest, none⟩) := by
    unfold searchKey searchOverlay
    dsimp only [Option.isNone_none, if_true, Option.bind_some]
    rw [if_pos rfl, hnone]
    dsimp only [Option.getD_none]
    unfold searchBase root
    dsimp only [List.headD_cons]
    rw [hbase]
  rw [hsearch]

/-- The promise holds in every run exactly if no overlay prefix opens over
nothing, unless every key is bound on the way. -/
theorem keymaps_law (esc : κ) (keymap : KeyTrie κ γ)
    (overlay : Option (KeyTrie κ γ)) :
    (∀ t : Typing κ γ, Reaches (fun _ _ => True)
        (press esc keymap overlay) start t → t.Law esc keymap overlay) ↔
      Grounded esc keymap overlay := by
  constructor
  · intro hlaw o ho first rest node hbase hrest hnode key hkey
    obtain rfl : overlay = some o := ho
    by_contra hno
    obtain ⟨r, hr⟩ := reaches_prefix hbase
      (show [] ++ first :: rest = first :: rest from rfl) hrest hnode .start
    have hpress := press_stranded hbase hnode hkey (by simpa using hno) r
    have hsettled := (hlaw _ (.step key hr trivial hpress)).settled .notFound
      rfl id
    cases hsettled
  · intro hgrounded t ht
    have hsound : t.Sound esc keymap overlay := by
      refine ht.invariant ?_ ?_
      · exact ⟨ready_nil none, fun r hr => (by cases hr),
          fun node hnode => (by cases hnode)⟩
      · intro t key t' h _ hx
        exact h.press hgrounded hx
    exact hsound.law hgrounded

/-- A base map of one command. -/
def appending : KeyTrie Char String :=
  .node ⟨"", [('a', .mappableCommand "append")], false, none⟩

/-- An overlay of one chord, 'c' and then 't'. -/
def chord : KeyTrie Char String :=
  .node ⟨"", [('c', .node ⟨"Org", [('t', .mappableCommand "todo")], false,
    none⟩)], false, none⟩

/-- The keys 'c' and 'x': 'x' is not found, and 'c' stays pending. -/
theorem not_keymaps_law_stranded :
    ∃ t : Typing Char String,
      Reaches (fun _ _ => True) (press 'e' appending (some chord)) start t ∧
        t.keymaps.state = ['c'] ∧ ¬ t.Law 'e' appending (some chord) := by
  refine ⟨_, .step 'x' (.step 'c' .start trivial rfl) trivial rfl, rfl, ?_⟩
  intro hlaw
  have hsettled := hlaw.settled .notFound rfl id
  cases hsettled

end Typing

end Keymaps

end Zmax
