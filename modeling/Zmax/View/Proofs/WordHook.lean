/-
What the word index is told of a document, against what was reported.

Of each document the reported events come apart into groups, and each group
is sent as one event (`Coalesced`): one step adds to the changes that wait
or ends a group (`coalesced_step`), so that the groups are those of the
whole run. As changes of a group follow each other, what is sent follows
each other as well (`Coalesced.chained`).
-/
import Zmax.Core.Proofs.Diff
import Zmax.Lib.Reach
import Zmax.View.WordIndex

namespace Zmax.WordIndex

open Reach

-- == statement vocabulary

/-- The events of one document. -/
def about (doc : DocumentId) (events : List Event) : List Event :=
  events.filter (·.doc = some doc)

/-- Each event is of the text that the one before it left, and the change
sets lead to the texts. -/
def Chained : Option Rope → List Event → Prop
  | _, [] => True
  | t, .update _ change :: events =>
      (∀ x ∈ t, change.oldText = x)
        ∧ change.changes.apply change.oldText = .ok (true, change.text)
        ∧ Chained (some change.text) events
  | t, .delete _ text :: events => (∀ x ∈ t, text = x) ∧ Chained none events
  | _, _ :: _ => False

/-- What one event that is sent stands for: changes in a row, or a deletion
with the changes that it makes void. -/
inductive Group where
  | update (first : Change) (more : List Change)
  | delete (changes : List Change) (text : Rope)

namespace Group

def reported (doc : DocumentId) : Group → List Event
  | .update first more => (first :: more).map (.update doc)
  | .delete changes text => changes.map (.update doc) ++ [.delete doc text]

/-- The event that is sent for a group. -/
def Sends (doc : DocumentId) : Group → Event → Prop
  | .update first more, event => ∃ change, event = .update doc change
      ∧ change.oldText = first.oldText
      ∧ change.text = (more.getLastD first).text
      ∧ (change.changes.apply change.oldText = .ok (true, change.text)
        ∨ more = [] ∧ change.changes = first.changes)
  | .delete changes text, event =>
      event = .delete doc ((changes.head?.map Change.oldText).getD text)

end Group

/-- The reported events are those of the groups that were sent, in order,
and changes that wait, as long as there is a deadline. -/
def Coalesced (doc : DocumentId) (reported sent : List Event)
    (deadline : Bool) : Prop :=
  ∃ groups waiting,
    reported = groups.flatMap (Group.reported doc)
        ++ waiting.map (Event.update doc)
      ∧ List.Forall₂ (Group.Sends doc) groups sent
      ∧ (deadline = false → waiting = [])

-- == chains

section

variable {doc : DocumentId} {t : Option Rope}

/-- Changes in a row lead from the first text to the last. -/
theorem Chained.updates {first : Change} {more : List Change}
    {events : List Event}
    (h : Chained t ((first :: more).map (.update doc) ++ events)) :
    (∀ x ∈ t, first.oldText = x)
      ∧ first.changes.apply first.oldText = .ok (true, first.text)
      ∧ Chained (some (more.getLastD first).text) events := by
  induction more generalizing first t with
  | nil => exact h
  | cons second more ih =>
      obtain ⟨hold, happly, hrest⟩ := h
      obtain ⟨-, -, hlast⟩ := ih hrest
      exact ⟨hold, happly, by cases more <;> exact hlast⟩

theorem Chained.sent {groups : List Group} {sent waiting : List Event}
    (h : Chained t (groups.flatMap (Group.reported doc) ++ waiting))
    (hsent : List.Forall₂ (Group.Sends doc) groups sent) :
    Chained t sent := by
  induction hsent generalizing t with
  | nil => trivial
  | @cons group event groups events hgroup hgroups ih =>
      rw [List.flatMap_cons, List.append_assoc] at h
      cases group with
      | update first more =>
          obtain ⟨change, rfl, hold, htext, hchanges⟩ := hgroup
          obtain ⟨hfirst, happly, hrest⟩ := h.updates
          rw [← htext] at hrest
          refine ⟨fun x hx => hold.trans (hfirst x hx), ?_, ih hrest⟩
          rcases hchanges with hchanges | ⟨rfl, hchanges⟩
          · exact hchanges
          · rw [hchanges, hold, htext]
            exact happly
      | delete changes text =>
          cases hgroup
          rw [Group.reported, List.append_assoc] at h
          cases changes with
          | nil =>
              obtain ⟨htext, hrest⟩ := h
              exact ⟨htext, ih hrest⟩
          | cons first more =>
              obtain ⟨hfirst, -, -, hrest⟩ := h.updates
              exact ⟨hfirst, ih hrest⟩

end

-- == debounces

section

variable (unicodeLines : Bool) {imara : ImaraDiff}

/-- The texts are kept, and the change set is one of them. -/
structure Refreshed (change fresh : Change) : Prop where
  oldText : fresh.oldText = change.oldText
  text : fresh.text = change.text
  changes : fresh.changes.apply fresh.oldText = .ok (true, fresh.text)
    ∨ change.dirty = false ∧ fresh.changes = change.changes

variable (hlines : imara.lines.Sound) (hchars : imara.chars.Sound)

include hlines hchars

theorem refresh_spec (change : Change) :
    ∃ fresh, Hook.refresh unicodeLines imara change = .ok fresh
      ∧ Refreshed change fresh := by
  unfold Hook.refresh
  by_cases hdirty : change.dirty = true
  · obtain ⟨t, ht, hcarries⟩ := compareRopes_carries unicodeLines hlines
      hchars change.oldText change.text
    rw [if_pos hdirty, ht, ok_bind]
    exact ⟨_, rfl, rfl, rfl, .inl (ChangeSet.Carries.apply hcarries)⟩
  · rw [if_neg hdirty]
    exact ⟨change, rfl, rfl, rfl, .inr ⟨by simpa using hdirty, rfl⟩⟩

/-- Each change that is drained is sent. -/
theorem finishDebounce_spec (hook : Hook)
    (order : List (DocumentId × Change)) :
    ∃ fresh : List Change,
      hook.finishDebounce unicodeLines imara order
          = .ok ⟨[], hook.coordinator
            ++ (order.zip fresh).map fun x => .update x.1.1 x.2⟩
        ∧ List.Forall₂ (fun x => Refreshed x.2) order fresh := by
  unfold Hook.finishDebounce
  obtain ⟨table, coordinator⟩ := hook
  dsimp only
  induction order generalizing coordinator with
  | nil => exact ⟨[], by simp [pure, Except.pure], .nil⟩
  | cons x order ih =>
      obtain ⟨c, hc, hfresh⟩ :=
        refresh_spec unicodeLines hlines hchars x.2
      obtain ⟨fresh, hfold, hall⟩ := ih (coordinator ++ [.update x.1 c])
      refine ⟨c :: fresh, ?_, .cons hfresh hall⟩
      rw [List.foldlM_cons, hc, ok_bind]
      refine (show _ = _ from hfold).trans ?_
      rw [List.append_assoc]
      rfl

end

theorem about_append (doc : DocumentId) (xs ys : List Event) :
    about doc (xs ++ ys) = about doc xs ++ about doc ys :=
  List.filter_append ..

theorem about_cons (doc : DocumentId) (event : Event) (events : List Event) :
    about doc (event :: events) = about doc [event] ++ about doc events :=
  about_append doc [event] events

variable {doc : DocumentId} {event : Event}

theorem about_self (h : event.doc = some doc) : about doc [event] = [event] :=
  List.filter_cons_of_pos (decide_eq_true h)

theorem about_ne (h : event.doc ≠ some doc) : about doc [event] = [] :=
  List.filter_cons_of_neg (by simpa using h)

theorem about_concat_self (h : event.doc = some doc) (events : List Event) :
    about doc (events ++ [event]) = about doc events ++ [event] := by
  rw [about_append, about_self h]

theorem about_concat_ne (h : event.doc ≠ some doc) (events : List Event) :
    about doc (events ++ [event]) = about doc events := by
  rw [about_append, about_ne h, List.append_nil]

/-- An event that is sent for a change. -/
def SentFor (doc : DocumentId) (change : Change) (event : Event) : Prop :=
  ∃ fresh, event = .update doc fresh ∧ Refreshed change fresh

theorem about_zip (doc : DocumentId) {order : List (DocumentId × Change)}
    {fresh : List Change}
    (h : List.Forall₂ (fun x => Refreshed x.2) order fresh) :
    List.Forall₂ (fun x => SentFor doc x.2) (order.filter (·.1 = doc))
      (about doc ((order.zip fresh).map fun x => .update x.1.1 x.2)) := by
  induction h with
  | nil => exact .nil
  | @cons x c order fresh hfresh hall ih =>
      rw [List.zip_cons_cons, List.map_cons, about_cons, List.filter_cons]
      by_cases hx : x.1 = doc
      · subst hx
        rw [if_pos (by simp), about_self rfl]
        exact .cons ⟨c, rfl, hfresh⟩ ih
      · rw [if_neg (by simpa using hx),
          about_ne (by simpa [Event.doc] using hx)]
        exact ih

/-- Of each document what waits is sent, once. -/
theorem about_drained (doc : DocumentId) {table : Table DocumentId Change}
    (hnodup : (table.map Prod.fst).Nodup)
    {order : List (DocumentId × Change)} (hperm : order.Perm table)
    {fresh : List Change}
    (h : List.Forall₂ (fun x => Refreshed x.2) order fresh) :
    List.Forall₂ (SentFor doc) (table.get doc).toList
      (about doc ((order.zip fresh).map fun x => .update x.1.1 x.2)) := by
  have hfilter := hperm.filter (·.1 = doc)
  have hsent := about_zip doc h
  rw [Table.filter_key hnodup] at hfilter
  cases hget : table.get doc with
  | none =>
      rw [hget] at hfilter
      rw [List.perm_nil.mp hfilter] at hsent
      exact List.forall₂_nil_left_iff.mpr (List.forall₂_nil_left_iff.mp hsent)
  | some change =>
      rw [hget] at hfilter
      rw [List.perm_singleton.mp hfilter] at hsent
      generalize about doc _ = sent at *
      cases hsent with
      | cons hchange hnil =>
          cases hnil
          exact .cons hchange .nil

-- == runs

/-- The change that stands for changes that wait. -/
def Waits : Option Change → List Change → Prop
  | none, waiting => waiting = []
  | some _, [] => False
  | some change, first :: more => change.oldText = first.oldText
      ∧ change.text = (more.getLastD first).text
      ∧ (change.dirty = false → more = [] ∧ change.changes = first.changes)

/-- What is so of a document throughout a run. -/
def Running.Holds (r : Running) (doc : DocumentId) : Prop :=
  ∃ groups waiting,
    about doc r.reported = groups.flatMap (Group.reported doc)
        ++ waiting.map (Event.update doc)
      ∧ List.Forall₂ (Group.Sends doc) groups (about doc r.hook.coordinator)
      ∧ Waits (r.hook.changes.get doc) waiting
      ∧ (r.deadline = false → waiting = [])

theorem Waits.sends {change : Change} {first : Change} {more : List Change}
    (h : Waits (some change) (first :: more))
    (hevent : SentFor doc change event) :
    Group.Sends doc (.update first more) event := by
  obtain ⟨hold, htext, hdirty⟩ := h
  obtain ⟨fresh, rfl, hfresh⟩ := hevent
  refine ⟨fresh, rfl, hfresh.oldText.trans hold, hfresh.text.trans htext, ?_⟩
  refine hfresh.changes.imp_right fun ⟨hclean, hchanges⟩ => ?_
  obtain ⟨hmore, hfirst⟩ := hdirty hclean
  exact ⟨hmore, hchanges.trans hfirst⟩

theorem Waits.append {pending change : Change} {waiting : List Change}
    (h : Waits (some pending) waiting) :
    Waits (some { pending with text := change.text, dirty := true })
      (waiting ++ [change]) := by
  cases waiting with
  | nil => cases h
  | cons first more =>
      refine ⟨h.1, ?_, fun hfalse => by cases hfalse⟩
      show change.text = ((more ++ [change]).getLastD first).text
      rw [List.getLastD_concat]

namespace Running.Holds

variable {r : Running} {doc : DocumentId}

theorem start : Running.start.Holds doc :=
  ⟨[], [], rfl, .nil, rfl, fun _ => rfl⟩

variable {changes : Table DocumentId Change} {coordinator : List Event}

/-- A document that an event is not about is as before. -/
theorem other (h : r.Holds doc) {event : Event} (hdoc : event.doc ≠ some doc)
    {deadline : Bool} (hget : changes.get doc = r.hook.changes.get doc)
    (hsent : about doc coordinator = about doc r.hook.coordinator)
    (hdeadline : deadline = false → r.deadline = false) :
    Running.Holds ⟨⟨changes, coordinator⟩, deadline, r.reported ++ [event]⟩
      doc := by
  obtain ⟨groups, waiting, hreported, hgroups, hwaits, hnone⟩ := h
  refine ⟨groups, waiting, ?_, ?_, ?_, fun hd => hnone (hdeadline hd)⟩
  · rw [about_concat_ne hdoc, hreported]
  · rw [hsent]
    exact hgroups
  · rw [hget]
    exact hwaits

/-- A change waits with those that wait. -/
theorem wait (h : r.Holds doc) (change : Change)
    (hsent : about doc coordinator = about doc r.hook.coordinator)
    (hwaits : ∀ waiting, Waits (r.hook.changes.get doc) waiting →
      Waits (changes.get doc) (waiting ++ [change])) :
    Running.Holds ⟨⟨changes, coordinator⟩, true,
      r.reported ++ [.update doc change]⟩ doc := by
  obtain ⟨groups, waiting, hreported, hgroups, hwait, -⟩ := h
  refine ⟨groups, waiting ++ [change], ?_, ?_, hwaits waiting hwait,
    fun hfalse => by cases hfalse⟩
  · rw [about_concat_self rfl, hreported, List.map_append,
      List.append_assoc]
    rfl
  · rw [hsent]
    exact hgroups

/-- A group ends, and nothing waits. -/
theorem close (h : r.Holds doc) (event : Event) {deadline : Bool}
    {reported : List Event}
    (hgroup : ∀ waiting, Waits (r.hook.changes.get doc) waiting →
      ∃ group : Group, waiting.map (Event.update doc) ++ about doc reported
        = group.reported doc ∧ group.Sends doc event)
    (hsent : about doc coordinator = about doc r.hook.coordinator ++ [event])
    (hget : changes.get doc = none) :
    Running.Holds ⟨⟨changes, coordinator⟩, deadline,
      r.reported ++ reported⟩ doc := by
  obtain ⟨groups, waiting, hreported, hgroups, hwait, -⟩ := h
  obtain ⟨group, heq, hsends⟩ := hgroup waiting hwait
  refine ⟨groups ++ [group], [], ?_, ?_, ?_, fun _ => rfl⟩
  · rw [about_append, hreported, List.append_assoc, heq, List.flatMap_append,
      List.flatMap_singleton, List.map_nil, List.append_nil]
  · rw [hsent]
    exact List.rel_append hgroups (.cons hsends .nil)
  · rw [hget]
    rfl

end Running.Holds

/-- What waits is there once for each document. -/
structure Running.Inv (r : Running) : Prop where
  nodup : (r.hook.changes.map Prod.fst).Nodup
  holds : ∀ doc, r.Holds doc

theorem Running.Inv.report {r : Running} (h : r.Inv)
    (hevent : event.doc.isSome) :
    ∃ x, r.hook.handleEvent event r.deadline = .ok x
      ∧ Running.Inv ⟨x.1, x.2, r.reported ++ [event]⟩ := by
  have hwaits {doc : DocumentId} (hget : r.hook.changes.get doc = none) :
      ∀ waiting, Waits (r.hook.changes.get doc) waiting → waiting = [] := by
    rw [hget]
    exact fun _ h => h
  cases event with
  | insert => cases hevent
  | clear => cases hevent
  | update doc change =>
      have hother {d : DocumentId} (hd : d ≠ doc) :
          (Event.update doc change).doc ≠ some d :=
        fun heq => hd (Option.some.inj heq).symm
      cases hget : r.hook.changes.get doc with
      | some pending =>
          refine ⟨_, by rw [Hook.handleEvent, hget], ?_⟩
          refine ⟨Table.nodup_insert h.nodup, fun d => ?_⟩
          by_cases hd : d = doc
          · subst hd
            refine (h.holds d).wait change rfl fun waiting hwait => ?_
            rw [hget] at hwait
            rw [Table.get_insert_self]
            exact hwait.append
          · exact (h.holds d).other (hother hd) (Table.get_insert_ne hd) rfl
              fun hfalse => by cases hfalse
      | none =>
          by_cases hsmall : isChangesetSignificant change.changes = false
          · refine ⟨_, by rw [Hook.handleEvent, hget, hsmall]; rfl, ?_⟩
            refine ⟨Table.nodup_insert h.nodup, fun d => ?_⟩
            by_cases hd : d = doc
            · subst hd
              refine (h.holds d).wait change rfl fun waiting hwait => ?_
              rw [hwaits hget waiting hwait, Table.get_insert_self]
              exact ⟨rfl, rfl, fun _ => ⟨rfl, rfl⟩⟩
            · exact (h.holds d).other (hother hd) (Table.get_insert_ne hd) rfl
                fun hfalse => by cases hfalse
          · have hlarge : isChangesetSignificant change.changes = true := by
              simpa using hsmall
            refine ⟨_, by rw [Hook.handleEvent, hget, hlarge]; rfl, ?_⟩
            refine ⟨h.nodup, fun d => ?_⟩
            by_cases hd : d = doc
            · subst hd
              refine (h.holds d).close (.update d change)
                (fun waiting hwait => ?_) (about_concat_self rfl _) hget
              rw [hwaits hget waiting hwait, about_self rfl]
              exact ⟨.update change [], rfl, change, rfl, rfl, rfl,
                .inr ⟨rfl, rfl⟩⟩
            · exact (h.holds d).other (hother hd) rfl
                (about_concat_ne (hother hd) _) id
  | delete doc text =>
      have hother {d : DocumentId} (hd : d ≠ doc) (text : Rope) :
          (Event.delete doc text).doc ≠ some d :=
        fun heq => hd (Option.some.inj heq).symm
      cases hget : r.hook.changes.get doc with
      | some pending =>
          refine ⟨_, by rw [Hook.handleEvent, hget], ?_⟩
          refine ⟨Table.nodup_erase h.nodup, fun d => ?_⟩
          by_cases hd : d = doc
          · subst hd
            refine (h.holds d).close (.delete d pending.oldText)
              (fun waiting hwait => ?_) (about_concat_self rfl _)
              Table.get_erase_self
            rw [hget] at hwait
            cases waiting with
            | nil => cases hwait
            | cons first more =>
                refine ⟨.delete (first :: more) text, ?_, ?_⟩
                · rw [about_self rfl]
                  rfl
                · rw [hwait.1]
                  rfl
          · exact (h.holds d).other (hother hd text) (Table.get_erase_ne hd)
              (about_concat_ne (hother hd _) _) id
      | none =>
          refine ⟨_, by rw [Hook.handleEvent, hget], ?_⟩
          refine ⟨h.nodup, fun d => ?_⟩
          by_cases hd : d = doc
          · subst hd
            refine (h.holds d).close (.delete d text)
              (fun waiting hwait => ?_) (about_concat_self rfl _) hget
            rw [hwaits hget waiting hwait, about_self rfl]
            exact ⟨.delete [] text, rfl, rfl⟩
          · exact (h.holds d).other (hother hd text) rfl
              (about_concat_ne (hother hd _) _) id

section

variable (unicodeLines : Bool) {imara : ImaraDiff}
variable (hlines : imara.lines.Sound) (hchars : imara.chars.Sound)

include hlines hchars

theorem Running.Inv.fire {r : Running} (h : r.Inv)
    {order : List (DocumentId × Change)}
    (hperm : order.Perm r.hook.changes) :
    ∃ hook, r.hook.finishDebounce unicodeLines imara order = .ok hook
      ∧ Running.Inv ⟨hook, false, r.reported⟩ := by
  obtain ⟨fresh, hfire, hfresh⟩ :=
    finishDebounce_spec unicodeLines hlines hchars r.hook order
  refine ⟨_, hfire, List.nodup_nil, fun doc => ?_⟩
  have hsent := about_drained doc h.nodup hperm hfresh
  have happend := about_append doc r.hook.coordinator
    ((order.zip fresh).map fun x => .update x.1.1 x.2)
  have hdoc := h.holds doc
  rw [← List.append_nil r.reported]
  cases hget : r.hook.changes.get doc with
  | none =>
      rw [hget] at hsent
      obtain ⟨groups, waiting, hreported, hgroups, hwait, -⟩ := hdoc
      rw [hget] at hwait
      cases hwait
      refine ⟨groups, [], ?_, ?_, rfl, fun _ => rfl⟩
      · rw [List.append_nil, hreported]
      · rw [happend, List.forall₂_nil_left_iff.mp hsent, List.append_nil]
        exact hgroups
  | some change =>
      rw [hget] at hsent
      generalize about doc ((order.zip fresh).map _) = sent at hsent happend
      cases hsent with
      | @cons _ event _ _ hchange hnil =>
          cases hnil
          refine hdoc.close event (fun waiting hwait => ?_) happend rfl
          rw [hget] at hwait
          cases waiting with
          | nil => cases hwait
          | cons first more =>
              exact ⟨.update first more, List.append_nil _,
                hwait.sends hchange⟩

/-- Nothing panics, and each step keeps what is so of the documents. -/
theorem coalesced_step {r : Running} (h : r.Inv) {action : Action}
    (hguard : r.Guard action) :
    ∃ r', r.exec unicodeLines imara action = .ok r' ∧ r'.Inv := by
  cases action with
  | report event =>
      obtain ⟨x, hx, hinv⟩ := h.report hguard
      exact ⟨_, by rw [Running.exec, hx, ok_bind]; rfl, hinv⟩
  | fire order =>
      obtain ⟨hook, hhook, hinv⟩ :=
        h.fire unicodeLines hlines hchars hguard
      exact ⟨_, by rw [Running.exec, hhook, ok_bind]; rfl, hinv⟩

/-- What the coordinator is sent, in any run of the hook. -/
theorem hook_law (opened : DocumentId → Option Rope) {r : Running}
    (hr : Reaches Running.Guard (Running.exec unicodeLines imara) .start r)
    (hreported : ∀ doc, Chained (opened doc) (about doc r.reported)) :
    (∀ action, r.Guard action →
        ∃ r', r.exec unicodeLines imara action = .ok r')
      ∧ ∀ doc, Chained (opened doc) (about doc r.hook.coordinator)
        ∧ Coalesced doc (about doc r.reported)
          (about doc r.hook.coordinator) r.deadline := by
  have hinv : r.Inv := by
    refine hr.invariant ⟨List.nodup_nil, fun _ => .start⟩ ?_
    intro s action s' hs hguard hexec
    obtain ⟨s'', hexec', hinv⟩ :=
      coalesced_step unicodeLines hlines hchars hs hguard
    cases hexec.symm.trans hexec'
    exact hinv
  refine ⟨fun action hguard => ?_, fun doc => ?_⟩
  · obtain ⟨r', hexec, -⟩ :=
      coalesced_step unicodeLines hlines hchars hinv hguard
    exact ⟨r', hexec⟩
  · obtain ⟨groups, waiting, heq, hgroups, -, hnone⟩ := hinv.holds doc
    refine ⟨?_, groups, waiting, heq, hgroups, hnone⟩
    have hchained := hreported doc
    rw [heq] at hchained
    exact hchained.sent hgroups

end

def typedB : Change :=
  ⟨['a'], ['a', 'b'], ⟨[.retain 1, .insert ['b']], 1, 2⟩, false⟩

def typedC : Change :=
  ⟨['a', 'b'], ['a', 'b', 'c'], ⟨[.retain 2, .insert ['c']], 2, 3⟩, false⟩

/-- Two changes of a document, and a deadline that passes. -/
def typed : Running :=
  ⟨⟨[], [.update 0 ⟨['a'], ['a', 'b', 'c'],
      ⟨[.insert ['a', 'b', 'c'], .delete 1], 1, 3⟩, false⟩]⟩, false,
    [.update 0 typedB, .update 0 typedC]⟩

theorem hook_law_typed :
    Chained (some ['a']) (about 0 typed.hook.coordinator)
      ∧ Coalesced 0 (about 0 typed.reported)
        (about 0 typed.hook.coordinator) typed.deadline := by
  have hreaches : Reaches Running.Guard
      (Running.exec false ⟨Hunks.coarse, Hunks.coarse⟩) .start typed :=
    .step (.fire [(0, { typedB with text := typedC.text, dirty := true })])
      (.step (.report (.update 0 typedC))
        (.step (.report (.update 0 typedB)) .start rfl rfl) rfl rfl)
      (.refl _) (by decide)
  refine (hook_law false Hunks.coarse_sound Hunks.coarse_sound
    (fun _ => some ['a']) hreaches fun doc => ?_).2 0
  by_cases hdoc : doc = 0
  · subst hdoc
    refine ⟨fun x hx => Option.some.inj hx, rfl, ?_⟩
    exact ⟨fun x hx => Option.some.inj hx, rfl, trivial⟩
  · have hnone : about doc typed.reported = [] := by
      refine List.filter_eq_nil_iff.mpr fun event hevent => ?_
      have hzero : event.doc = some 0 := by
        rcases List.mem_cons.mp hevent with rfl | hevent
        · rfl
        · cases List.mem_singleton.mp hevent
          rfl
      rw [hzero]
      simpa using Ne.symm hdoc
    rw [hnone]
    trivial

end Zmax.WordIndex
