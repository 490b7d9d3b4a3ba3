import GuardedList.Proofs.Failure
import GuardedList.Proofs.Logging
import GuardedList.Proofs.Refinement

/-!
# The log as a journal

With hooks that never panic, the traces in the log tell how the elements of a list came about: each
change that was made is traced once, and nothing else is. Replayed from no elements, the traces of
the steps so far give the elements that the list holds (`replay?_of_told`), so their counts give the
number of elements that the end of the list frees (`freed_of_told`).

Warnings do not belong to the journal. A lock may log what warnings it likes.
-/

namespace GuardedList

variable {ω σ α : Type}

namespace Message

/-- Whether the message belongs to the journal. -/
def isNoWarning (message : Message) : Bool := message.level != .warn

/-- Whether the message traces a change. -/
def isTrace (message : Message) : Bool := message.level == .trace

/-- Whether the message traces a removal. -/
def isUnlinked : Message → Bool
  | unlinked _ => true
  | _ => false

/-- The number of elements that the message says were freed. -/
def freed? : Message → Option Nat
  | freed count => some count
  | _ => none

/-- Makes the change that the message tells of, with the copy that was made for it. -/
def replay? (copy? : Option α) (elements : List α) : Message → Option (List α)
  | appended => copy?.map fun copy => elements ++ [copy]
  | unlinked index => if index < elements.length then some (elements.eraseIdx index) else none
  | replaced index =>
    copy?.bind fun copy =>
      if index < elements.length then some (elements.set index copy) else none
  | _ => some elements

/-- What a message says of the number of elements is so when the message is replayed. -/
theorem length_of_replay? {message : Message} {copy? : Option α} {elements after : List α}
    (h : message.replay? copy? elements = some after) :
    after.length + [message].countP isUnlinked = elements.length + [message].count .appended := by
  cases message with
  | appended =>
    obtain ⟨copy, -, rfl⟩ := Option.map_eq_some_iff.1 h
    simp [isUnlinked]
  | unlinked index =>
    simp only [replay?, Option.ite_none_right_eq_some, Option.some.injEq] at h
    obtain ⟨hindex, rfl⟩ := h
    simp [isUnlinked, List.length_eraseIdx, hindex]
    omega
  | replaced index =>
    obtain ⟨copy, -, h⟩ := Option.bind_eq_some_iff.1 h
    simp only [Option.ite_none_right_eq_some, Option.some.injEq] at h
    obtain ⟨-, rfl⟩ := h
    simp [isUnlinked]
  | _ =>
    cases h
    simp [isUnlinked]

theorem length_of_replayAll {messages : List Message} {copy? : Option α}
    {elements after : List α} (h : messages.foldlM (replay? copy?) elements = some after) :
    after.length + messages.countP isUnlinked = elements.length + messages.count .appended := by
  induction messages generalizing elements with
  | nil =>
    cases h
    rfl
  | cons message messages ih =>
    obtain ⟨middle, hfirst, hlater⟩ := Option.bind_eq_some_iff.1 h
    have hmiddle := length_of_replay? hfirst
    have hafter := ih hlater
    rw [← List.singleton_append, List.countP_append, List.count_append]
    omega

end Message

namespace Entry

/-- The changes that the step traced. -/
def traces (entry : Entry α) : List Message := entry.messages.filter Message.isTrace

/-- The first copy that the hooks made in the step. -/
def copy? (entry : Entry α) : Option α := entry.calls.findSome? HookCall.copy?

/-- Makes the changes that the step traced. -/
def replay? (entry : Entry α) (elements : List α) : Option (List α) :=
  entry.traces.foldlM (Message.replay? entry.copy?) elements

/-- The number of values that the step handed to the dispose hook. -/
def disposals (entry : Entry α) : Nat := (entry.calls.filterMap HookCall.disposed?).length

end Entry

/-- Makes the changes that were traced, one after another, from no elements. -/
def replay? (entries : List (Entry α)) : Option (List α) :=
  entries.foldlM (fun elements entry => entry.replay? elements) []

/-- The number of additions in the log. -/
def additions (entries : List (Entry α)) : Nat :=
  (entries.flatMap fun entry => entry.messages).count .appended

/-- The number of removals in the log. -/
def removals (entries : List (Entry α)) : Nat :=
  (entries.flatMap fun entry => entry.messages).countP Message.isUnlinked

/-- What a step traces if it succeeds. -/
def Step.trace? : Step α → Option Message
  | call (.add _) => some .appended
  | call (.remove index) => some (.unlinked index)
  | call (.update index _) => some (.replaced index)
  | _ => none

/-- The step returned, and traced its change if it made one. -/
structure Entry.Traced (entry : Entry α) : Prop where
  returned (text : String) : entry.result ≠ .panicked text
  done {reply : Reply α} : entry.result = .value reply → entry.traces = entry.step.trace?.toList
  failed {cause : ListError} : entry.result = .error cause → entry.traces = []

/-- The first of the steps that destroys the list, and nobody else, logs how many elements were
freed. -/
structure FreedBy (entries front : List (Entry α)) (entry : Entry α) (back : List (Entry α)) :
    Prop where
  split : entries = front ++ entry :: back
  first : ∀ earlier ∈ front, earlier.step ≠ .destroy
  destroys : entry.step = .destroy
  logged : entry.messages.filterMap Message.freed? = [entry.disposals]
  once : ∀ other ∈ front ++ back, other.messages.filterMap Message.freed? = []

/-- The log of a list's life is a journal of it. -/
structure Journaled (entries : List (Entry α)) : Prop where
  traced : ∀ entry ∈ entries, entry.Traced
  /-- Up to the end of the list, what was traced so far gives the elements. -/
  replayed {front back : List (Entry α)} {entry : Entry α} : entries = front ++ entry :: back →
    (∀ earlier ∈ front ++ [entry], earlier.step ≠ .destroy) →
    ∃ elements, entry.after = some elements ∧ replay? (front ++ [entry]) = some elements
  /-- And the end of the list frees as many elements as were added and not removed. -/
  freed : ∃ front entry back, FreedBy entries front entry back ∧
    entry.disposals + removals entries = additions entries

theorem FreedBy.cons {entries front back : List (Entry α)} {first entry : Entry α}
    (h : FreedBy entries front entry back) (hfirst : first.step ≠ .destroy)
    (hsilent : first.messages.filterMap Message.freed? = []) :
    FreedBy (first :: entries) (first :: front) entry back where
  split := congrArg _ h.split
  first := List.forall_mem_cons.2 ⟨hfirst, h.first⟩
  destroys := h.destroys
  logged := h.logged
  once := List.forall_mem_cons.2 ⟨hsilent, h.once⟩

section Turn

variable {strategy : Strategy α} {size : Nat} {answer : Except LockError Unit}
  {past : List (HookCall α)} {elements : List α}

theorem Operation.notes_of_value (operation : Operation α) {result : Ending (Reply α)}
    {reply : Reply α} (h : result = .value reply) :
    operation.notes result = (Step.call operation).trace?.toList := by
  subst h
  cases operation <;> rfl

theorem Operation.notes_of_error (operation : Operation α) {result : Ending (Reply α)}
    {cause : ListError} (h : result = .error cause) : operation.notes result = [] := by
  subst h
  cases operation <;> rfl

/-- Hooks that never panic dispose of everything. -/
theorem Strategy.Calm.disposeAll (calm : strategy.Calm) (past : List (HookCall α))
    (values : List α) :
    (strategy.disposeAll past values).1 = none ∧
      (strategy.disposeAll past values).2.filterMap HookCall.disposed? = values := by
  induction values generalizing past with
  | nil => exact ⟨rfl, rfl⟩
  | cons value values ih =>
    have hresidue := calm.dispose past value
    obtain ⟨hnone, hall⟩ := ih (past ++ [.disposed value (strategy.dispose past value)])
    simp [Strategy.disposeAll, hresidue, hnone, hall, HookCall.disposed?]

/-- To replay what an operation logs is to make the change that it made. -/
theorem Operation.replay?_notes (calm : strategy.Calm) (operation : Operation α) :
    let turn := operation.turn strategy size answer past elements
    (operation.notes turn.result).foldlM
      (Message.replay? (turn.calls.findSome? HookCall.copy?)) elements = some turn.contents := by
  have hfollowed : ∀ past value (ending : Ending (Reply α)),
      (strategy.dispose past value).followedBy ending = ending := fun past value ending =>
    Residue.followedBy_of_calm (calm.dispose past value) ending
  cases operation with
  | add value =>
    simp only [turn]
    cases hcopy : strategy.copy past value with
    | value stored =>
      cases answer with
      | ok => simp [notes, Message.replay?, HookCall.copy?]
      | error cause => simp [hfollowed, notes]
    | error cause => rfl
    | panicked text => rfl
  | remove index =>
    cases answer with
    | ok =>
      simp only [turn, Turn.locked]
      cases helement : elements[index]? with
      | none => rfl
      | some old =>
        obtain ⟨hindex, -⟩ := List.getElem?_eq_some_iff.1 helement
        simp [hfollowed, notes, Message.replay?, hindex]
    | error cause => rfl
  | update index value =>
    cases answer with
    | ok =>
      simp only [turn, Turn.locked]
      cases helement : elements[index]? with
      | none => rfl
      | some old =>
        obtain ⟨hindex, -⟩ := List.getElem?_eq_some_iff.1 helement
        cases hcopy : strategy.copy past value with
        | value replacement =>
          simp [hfollowed, calm.dispose, notes, Message.replay?, hindex, List.findSome?_cons,
            HookCall.copy?]
        | error cause => rfl
        | panicked text => rfl
    | error cause => rfl
  | get index =>
    cases answer with
    | ok =>
      simp only [turn, Turn.locked]
      cases elements[index]? <;> rfl
    | error cause => rfl
  | length => cases answer <;> rfl
  | isEmpty => cases answer <;> rfl
  | releaseValue value => rfl
  | isInitialized => rfl
  | elementSize => rfl

end Turn

section Told

variable {strategy : Strategy α} {size : Nat} {answers : Except LockError Unit → Prop}
  {past : List (HookCall α)} {contents : Option (List α)} {entries : List (Entry α)}

/-- Traces are no warnings. -/
theorem Entry.traces_eq (entry : Entry α) {noted : List Message}
    (h : entry.messages.filter Message.isNoWarning = noted) :
    entry.traces = noted.filter Message.isTrace := by
  rw [← h, List.filter_filter, traces]
  refine List.filter_congr fun message _ => ?_
  cases message <;> rfl

/-- What is said of freed elements is no warning. -/
theorem Entry.freed_eq (entry : Entry α) {noted : List Message}
    (h : entry.messages.filter Message.isNoWarning = noted) :
    entry.messages.filterMap Message.freed? = noted.filterMap Message.freed? := by
  rw [← h, List.filterMap_filter]
  congr
  funext message
  cases message <;> rfl

theorem Entry.count_appended (entry : Entry α) :
    entry.messages.count .appended = entry.traces.count .appended :=
  (List.count_filter rfl).symm

theorem Entry.countP_isUnlinked (entry : Entry α) :
    entry.messages.countP Message.isUnlinked = entry.traces.countP Message.isUnlinked := by
  rw [traces, List.countP_filter]
  refine List.countP_congr fun message _ => ?_
  cases message <;> simp [Message.isUnlinked, Message.isTrace, Message.level]

theorem additions_cons (entry : Entry α) (entries : List (Entry α)) :
    additions (entry :: entries) = entry.traces.count .appended + additions entries := by
  rw [additions, List.flatMap_cons, List.count_append, entry.count_appended, additions]

theorem removals_cons (entry : Entry α) (entries : List (Entry α)) :
    removals (entry :: entries) = entry.traces.countP Message.isUnlinked + removals entries := by
  rw [removals, List.flatMap_cons, List.countP_append, entry.countP_isUnlinked, removals]

/-- The traces of an operation are all that it logs, warnings apart. -/
theorem Operation.filter_notes (operation : Operation α) (result : Ending (Reply α)) :
    (operation.notes result).filter Message.isTrace = operation.notes result := by
  cases operation <;> cases result <;> rfl

theorem Operation.freed_notes (operation : Operation α) (result : Ending (Reply α)) :
    (operation.notes result).filterMap Message.freed? = [] := by
  cases operation <;> cases result <;> rfl

section Episode

variable {answer : Except LockError Unit} {elements : List α} {messages : List Message}

theorem traced_of_episode (calm : strategy.Calm) {step : Step α}
    (h : messages.filter Message.isNoWarning =
      step.notes contents (ListMachine.episode strategy size answer past contents step).result) :
    (⟨ListMachine.episode strategy size answer past contents step, messages⟩ :
      Entry α).Traced := by
  have htraces :=
    Entry.traces_eq ⟨ListMachine.episode strategy size answer past contents step, messages⟩ h
  cases step with
  | call operation =>
    cases contents with
    | some elements =>
      rw [Step.notes, operation.filter_notes] at htraces
      exact ⟨calm.turn_ne_panicked operation size answer past elements,
        fun hreply => htraces.trans (operation.notes_of_value hreply),
        fun hcause => htraces.trans (operation.notes_of_error hcause)⟩
    | none =>
      refine ⟨?_, fun hreply => htraces.trans ?_, fun _ => htraces⟩
      · cases operation <;> simp [ListMachine.episode, Operation.afterDestroy]
      · cases operation <;> first | rfl | cases hreply
  | destroy =>
    cases contents with
    | some elements =>
      have hresult : (ListMachine.episode strategy size answer past (some elements)
          .destroy).result = .value .done := by
        simp [ListMachine.episode, (calm.disposeAll past elements).1, Residue.followedBy]
      rw [hresult] at htraces
      exact ⟨by simp [hresult], fun _ => htraces, fun _ => htraces⟩
    | none => exact ⟨by simp [ListMachine.episode], fun _ => htraces, fun _ => htraces⟩

/-- To replay an operation is to make the change that it made. -/
theorem replay?_of_episode (calm : strategy.Calm) {operation : Operation α}
    (h : messages.filter Message.isNoWarning = (Step.call operation).notes (some elements)
      (ListMachine.episode strategy size answer past (some elements) (.call operation)).result) :
    (⟨ListMachine.episode strategy size answer past (some elements) (.call operation), messages⟩ :
        Entry α).replay? elements =
      some (operation.turn strategy size answer past elements).contents := by
  rw [Entry.replay?, Entry.traces_eq _ h, Step.notes, operation.filter_notes]
  exact operation.replay?_notes calm

end Episode

theorem traced_of_told (calm : strategy.Calm)
    (h : Told strategy size Message.isNoWarning answers past contents entries) :
    ∀ entry ∈ entries, entry.Traced := by
  induction h with
  | nil => nofun
  | cons _ hmessages _ ih => exact List.forall_mem_cons.2 ⟨traced_of_episode calm hmessages, ih⟩

/-- Up to the end of the list, the traces give the elements. -/
theorem replay?_of_told (calm : strategy.Calm) {elements : List α} {front back : List (Entry α)}
    {entry : Entry α}
    (h : Told strategy size Message.isNoWarning answers past (some elements)
      (front ++ entry :: back))
    (hfront : ∀ earlier ∈ front ++ [entry], earlier.step ≠ .destroy) :
    ∃ after, entry.after = some after ∧
      (front ++ [entry]).foldlM (fun elements entry => entry.replay? elements) elements =
        some after := by
  induction front generalizing past elements with
  | nil =>
    cases h with
    | @cons _ _ step answer messages _ _ hmessages _ =>
      cases step with
      | call operation =>
        refine ⟨_, rfl, ?_⟩
        simp [replay?_of_episode calm hmessages]
      | destroy => exact absurd rfl (hfront _ List.mem_cons_self)
  | cons first front ih =>
    cases h with
    | @cons _ _ step answer messages _ _ hmessages hlater =>
      cases step with
      | call operation =>
        obtain ⟨after, hafter, hreplay⟩ := ih hlater fun earlier hearlier =>
          hfront earlier (List.mem_cons_of_mem _ hearlier)
        refine ⟨after, hafter, ?_⟩
        rw [List.cons_append, List.foldlM_cons, replay?_of_episode calm hmessages]
        exact hreplay
      | destroy => exact absurd rfl (hfront _ List.mem_cons_self)

/-- After its end nothing is logged of a list but warnings. -/
theorem silent_of_told (h : Told strategy size Message.isNoWarning answers past none entries) :
    ∀ entry ∈ entries, entry.messages.filter Message.isNoWarning = [] := by
  generalize hcontents : (none : Option (List α)) = contents at h
  induction h with
  | nil => nofun
  | @cons past contents step answer messages entries hanswer hmessages _ ih =>
    subst hcontents
    refine List.forall_mem_cons.2 ⟨?_, ih ?_⟩
    · rw [hmessages]
      cases step <;> rfl
    · cases step <;> rfl

theorem counts_of_silent
    (h : ∀ entry ∈ entries, entry.messages.filter Message.isNoWarning = []) :
    additions entries = 0 ∧ removals entries = 0 := by
  induction entries with
  | nil => exact ⟨rfl, rfl⟩
  | cons entry entries ih =>
    obtain ⟨hentry, hentries⟩ := List.forall_mem_cons.1 h
    obtain ⟨hadditions, hremovals⟩ := ih hentries
    rw [additions_cons, removals_cons, Entry.traces_eq _ hentry, hadditions, hremovals]
    exact ⟨rfl, rfl⟩

/-- The first end of a list frees the elements that are left of those in the beginning and those
that were added. -/
theorem freed_of_told (calm : strategy.Calm) {elements : List α}
    (h : Told strategy size Message.isNoWarning answers past (some elements) entries)
    (hdestroy : ∃ entry ∈ entries, entry.step = .destroy) :
    ∃ front entry back, FreedBy entries front entry back ∧
      entry.disposals + removals entries = elements.length + additions entries := by
  -- Each call keeps the balance, as its traces say how the number of elements changes; the end
  -- settles it, and what comes afterwards logs nothing that counts.
  generalize hcontents : some elements = contents at h
  induction h generalizing elements with
  | nil =>
    obtain ⟨entry, hentry, -⟩ := hdestroy
    cases hentry
  | @cons past contents step answer messages entries hanswer hmessages hlater ih =>
    subst hcontents
    cases step with
    | call operation =>
      have hlength := Message.length_of_replayAll (replay?_of_episode calm hmessages)
      obtain ⟨entry, hentry, hstep⟩ := hdestroy
      obtain ⟨front, entry, back, hfreed, hcount⟩ := ih
        ⟨entry, (List.mem_cons.1 hentry).resolve_left (by rintro rfl; cases hstep), hstep⟩ rfl
      refine ⟨_, entry, back, hfreed.cons (by simp) ?_, ?_⟩
      · exact (Entry.freed_eq _ hmessages).trans (operation.freed_notes _)
      · rw [additions_cons, removals_cons]
        omega
    | destroy =>
      have hsilent := silent_of_told hlater
      obtain ⟨hadditions, hremovals⟩ := counts_of_silent hsilent
      obtain ⟨hnone, hdisposed⟩ := calm.disposeAll past elements
      have hnotes : messages.filter Message.isNoWarning = [.freed elements.length] := by
        rw [hmessages]
        simp [ListMachine.episode, hnone, Residue.followedBy, Step.notes]
      let ended : Entry α :=
        ⟨ListMachine.episode strategy size answer past (some elements) .destroy, messages⟩
      have hcount : ended.disposals = elements.length := congrArg List.length hdisposed
      refine ⟨[], ended, entries, ?_, ?_⟩
      · exact {
          split := rfl
          first := by simp
          destroys := rfl
          logged := by rw [hcount]; exact ended.freed_eq hnotes
          once := fun other hother => other.freed_eq (hsilent other hother) }
      · rw [additions_cons, removals_cons, ended.traces_eq hnotes, hadditions, hremovals, hcount]
        rfl

end Told

/-- Warnings apart, the messages of a list are those of its steps, whatever its lock answers. -/
theorem Heeds.isNoWarning : Heeds Message.isNoWarning (fun _ => True) where
  granted := trivial
  refusals _ := rfl
  changes h := bne_iff_ne.2 h

/-- Whatever is done with a list whose hooks never panic, and whatever its lock answers, the log of
its life is a journal of it. -/
theorem journaled_of_life [Journal ω] {log : ω → List Message} (shows : Journal.Shows log)
    {lock : Lock ω σ} {free : σ → Prop} (lawful : lock.Lawful free)
    (discreet : lock.Discreet log Message.isNoWarning free) {strategy : Strategy α}
    (calm : strategy.Calm) {size depth : Nat} {steps : List (Step α)} {start : ω}
    {outcome : Option (List (Entry α))}
    (hlife : life log lock strategy size depth steps start = .ok outcome) :
    ∃ entries, outcome = some entries ∧ entries.map (·.step) = steps ++ [.destroy] ∧
      Journaled entries := by
  obtain ⟨entries, rfl, hsteps, htold⟩ :=
    told_life shows discreet lawful .isNoWarning trivial (.inl trivial) hlife
  have hdestroy : ∃ entry ∈ entries, entry.step = .destroy := by
    rw [← List.mem_map, hsteps]
    exact List.mem_append_right _ List.mem_cons_self
  obtain ⟨front, entry, back, hfreed, hcount⟩ := freed_of_told calm htold hdestroy
  refine ⟨entries, rfl, hsteps, traced_of_told calm htold, ?_, front, entry, back, hfreed, ?_⟩
  · rintro front back entry rfl hfront
    exact replay?_of_told calm htold hfront
  · rw [hcount, List.length_nil, Nat.zero_add]

/-- A refused addition, copies that fail, positions that do not exist, and calls after the end of
the list. -/
theorem journaled_of_life_numbering :
    let lock : Lock (List Message) _ := .scripted [.ok (), .error .poisoned]
    let steps : List (Step Nat) := [.call (.add 3), .call (.add 5), .call (.add 0),
      .call (.update 0 7), .call (.get 0), .call (.remove 4), .call (.add 2), .call (.remove 0),
      .destroy, .call (.add 1), .call .length]
    Journal.Shows (List.reverse : List Message → List Message) ∧
    lock.Lawful (fun _ => True) ∧
    lock.Discreet List.reverse Message.isNoWarning (fun _ => True) ∧
    Strategy.numbering.Calm ∧
    ∃ entries, life List.reverse lock .numbering 8 0 steps [] = .ok (some entries) ∧
      entries.flatMap (·.messages) = [.appended, .additionRefused .poisoned, .replaced 0, .appended,
        .unlinked 0, .freed 1] ∧
      entries.map (·.after) = [some [3], some [3], some [3], some [11], some [11], some [11],
        some [11, 9], some [9], none, none, none, none] ∧
      Journaled entries := by
  intro lock steps
  have lawful : lock.Lawful (fun _ => True) := Lock.lawful_scripted _
  have discreet : lock.Discreet List.reverse Message.isNoWarning (fun _ => True) :=
    Lock.discreet_scripted _ _ _
  refine ⟨Journal.shows_reverse, lawful, discreet, Strategy.calm_numbering, ?_⟩
  obtain ⟨entries, hentries, -, hjournaled⟩ :=
    journaled_of_life Journal.shows_reverse lawful discreet Strategy.calm_numbering
      (rfl : life List.reverse lock .numbering 8 0 steps [] = .ok _)
  cases hentries
  exact ⟨_, rfl, rfl, rfl, hjournaled⟩

end GuardedList
