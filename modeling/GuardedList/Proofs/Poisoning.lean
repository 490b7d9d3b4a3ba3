import GuardedList.Proofs.Failure

/-!
# Poisoned locks

A lock that can be poisoned is poisoned just when a hook panicked that was called under it: a copy
that a `get` or an `update` asked for, or a disposal that an `update` asked for
(`Operation.PoisonsBy`). Panics of the hooks that are called without the lock never poison it.

From then on everybody is turned away (`Operation.TurnedAway`), and the elements stay as the panic
left them, until the list is destroyed; its elements are disposed of as ever.
-/

namespace GuardedList

variable {ω σ π α : Type}

/-- A hook call of the operation panicked under the lock. -/
inductive Operation.PoisonsBy (calls : List (HookCall α)) : Operation α → Prop
  | getting {index : Nat} {source : α} {text : String}
      (hcall : .copied source (.panicked text) ∈ calls) : PoisonsBy calls (.get index)
  | updating {index : Nat} {value source : α} {text : String}
      (hcall : .copied source (.panicked text) ∈ calls) : PoisonsBy calls (.update index value)
  | replacing {index : Nat} {value old left : α} {text : String}
      (hcall : .disposed old ⟨left, some text⟩ ∈ calls) : PoisonsBy calls (.update index value)

/-- Who calls no hooks poisons nothing. -/
theorem Operation.not_poisonsBy_nil (operation : Operation α) : ¬ operation.PoisonsBy [] := by
  intro hpoisons
  cases hpoisons with
  | getting hcall => cases hcall
  | updating hcall => cases hcall
  | replacing hcall => cases hcall

/-- The step is an operation that poisons the lock. -/
def Episode.Poisons (episode : Episode α) : Prop :=
  ∃ operation, episode.step = .call operation ∧ operation.PoisonsBy episode.calls

theorem Episode.not_poisons_of_destroy {episode : Episode α} (hstep : episode.step = .destroy) :
    ¬ episode.Poisons := by
  rintro ⟨operation, hcall, -⟩
  cases hstep.symm.trans hcall

/-- What comes of an operation, and which hooks it calls, when the lock is poisoned. -/
def Operation.TurnedAway (operation : Operation α) (result : Ending (Reply α))
    (calls : List (HookCall α)) : Prop :=
  match operation with
  | add value =>
    (∃ cause, calls = [.copied value (.error cause)] ∧ result = .error cause) ∨
    (∃ text, calls = [.copied value (.panicked text)] ∧ result = .panicked text) ∨
    ∃ copy residue, calls = [.copied value (.value copy), .disposed copy residue] ∧
      result = residue.followedBy (.error (.lock .poisoned))
  | remove _ | get _ | update _ _ | length | isEmpty =>
    calls = [] ∧ result = .error (.lock .poisoned)
  | releaseValue _ | isInitialized | elementSize => True

/-- The step is an operation that is turned away, and the elements stay. -/
def Episode.TurnedAway (episode : Episode α) : Prop :=
  episode.after = episode.before ∧
    ∃ operation, episode.step = .call operation ∧
      operation.TurnedAway episode.result episode.calls

/-- The answer of a lock that nobody holds. -/
def Poisoning.answer (poisoned : Bool) : Except LockError Unit :=
  if poisoned then .error .poisoned else .ok ()

section Operation

variable (strategy : Strategy α) (size : Nat) (past : List (HookCall α)) (chain : Chain α)

theorem Operation.unwinding_iff_of_get (index : Nat) :
    let solo := ((get index).routine size).solo strategy (.ok ()) chain past
    .released .unwinding ∈ solo.lockEvents ↔ (get index).PoisonsBy solo.calls := by
  have hpoisons : ∀ calls : List (HookCall α), (get index).PoisonsBy calls ↔
      ∃ source text, .copied source (.panicked text) ∈ calls := by
    intro calls
    constructor
    · rintro ⟨hcall⟩
      exact ⟨_, _, hcall⟩
    · rintro ⟨source, text, hcall⟩
      exact .getting hcall
  simp only [hpoisons, routine, Routine.get]
  cases hnode : chain.node? index with
  | none => simp [hnode, Solo.lockEvents, Event.isLock, Ending.manner]
  | some node =>
    cases hcopy : strategy.copy past node.value <;>
    simp [hnode, hcopy, Solo.lockEvents, Event.isLock, Ending.manner]

theorem Operation.unwinding_iff_of_update (index : Nat) (value : α) :
    let solo := ((update index value).routine size).solo strategy (.ok ()) chain past
    .released .unwinding ∈ solo.lockEvents ↔ (update index value).PoisonsBy solo.calls := by
  have hpoisons : ∀ calls : List (HookCall α), (update index value).PoisonsBy calls ↔
      (∃ source text, .copied source (.panicked text) ∈ calls) ∨
        ∃ old left text, .disposed old ⟨left, some text⟩ ∈ calls := by
    intro calls
    constructor
    · rintro (_ | hcall | hcall)
      · exact .inl ⟨_, _, hcall⟩
      · exact .inr ⟨_, _, _, hcall⟩
    · rintro (⟨source, text, hcall⟩ | ⟨old, left, text, hcall⟩)
      · exact .updating hcall
      · exact .replacing hcall
  simp only [hpoisons, routine, Routine.update]
  cases hfocus : chain.focus? index with
  | none => simp [hfocus, Solo.lockEvents, Event.isLock, Ending.manner]
  | some position =>
    cases hcopy : strategy.copy past value with
    | value replacement =>
      rcases hresidue : strategy.dispose (past ++ [.copied value (.value replacement)])
        position.value with ⟨left, _ | text⟩ <;>
      simp [hfocus, hcopy, hresidue, Solo.lockEvents, Event.isLock, Ending.manner, Residue.ending]
    | error cause => simp [hfocus, hcopy, Solo.lockEvents, Event.isLock, Ending.manner]
    | panicked text => simp [hfocus, hcopy, Solo.lockEvents, Event.isLock, Ending.manner]

/-- An operation that calls no hook under the lock gives it up in an orderly manner. -/
theorem Operation.not_unwinding {operation : Operation α} (hget : ∀ index, operation ≠ .get index)
    (hupdate : ∀ index value, operation ≠ .update index value) :
    .released .unwinding ∉
      ((operation.routine size).solo strategy (.ok ()) chain past).lockEvents := by
  cases operation with
  | add value =>
    cases hcopy : strategy.copy past value <;>
    simp [routine, Routine.add, hcopy, Solo.lockEvents, Event.isLock]
  | remove index =>
    cases hunlink : chain.unlink? index with
    | none => simp [routine, Routine.remove, Routine.detach, hunlink, Solo.lockEvents, Event.isLock,
        Ending.manner]
    | some detached =>
      rcases hresidue : strategy.dispose past detached.1.value with ⟨left, _ | text⟩ <;>
      simp [routine, Routine.remove, Routine.detach, hunlink, hresidue, Solo.lockEvents,
        Event.isLock, Ending.manner, Residue.ending]
  | get index => exact absurd rfl (hget index)
  | update index value => exact absurd rfl (hupdate index value)
  | length => simp [routine, Routine.length, Solo.lockEvents, Event.isLock, Ending.manner]
  | isEmpty => simp [routine, Routine.isEmpty, Solo.lockEvents, Event.isLock, Ending.manner]
  | releaseValue value =>
    rcases hresidue : strategy.dispose past value with ⟨left, _ | text⟩ <;>
    simp [routine, Routine.releaseValue, hresidue, Solo.lockEvents, Event.isLock, Residue.ending]
  | isInitialized => simp [routine, Solo.lockEvents]
  | elementSize => simp [routine, Solo.lockEvents]

/-- A guard goes while unwinding just when a hook panics that was called under the lock. -/
theorem Operation.unwinding_iff_poisonsBy (operation : Operation α) :
    .released .unwinding ∈
        ((operation.routine size).solo strategy (.ok ()) chain past).lockEvents ↔
      operation.PoisonsBy ((operation.routine size).solo strategy (.ok ()) chain past).calls := by
  cases operation with
  | get index => exact unwinding_iff_of_get strategy size past chain index
  | update index value => exact unwinding_iff_of_update strategy size past chain index value
  | _ => exact iff_of_false (not_unwinding strategy size past chain nofun nofun) nofun

/-- When the lock is poisoned, an operation that asks for it is turned away. -/
theorem Operation.turnedAway_of_refused (operation : Operation α) (elements : List α) :
    let turn := operation.turn strategy size (.error .poisoned) past elements
    turn.contents = elements ∧ operation.TurnedAway turn.result turn.calls := by
  cases operation with
  | add value =>
    simp only [turn, TurnedAway]
    cases hcopy : strategy.copy past value with
    | value copy => exact ⟨rfl, .inr (.inr ⟨copy, _, rfl, rfl⟩)⟩
    | error cause => exact ⟨rfl, .inl ⟨cause, rfl, rfl⟩⟩
    | panicked text => exact ⟨rfl, .inr (.inl ⟨text, rfl, rfl⟩)⟩
  | remove index => exact ⟨rfl, rfl, rfl⟩
  | get index => exact ⟨rfl, rfl, rfl⟩
  | update index value => exact ⟨rfl, rfl, rfl⟩
  | length => exact ⟨rfl, rfl, rfl⟩
  | isEmpty => exact ⟨rfl, rfl, rfl⟩
  | releaseValue value => exact ⟨rfl, trivial⟩
  | isInitialized => exact ⟨rfl, trivial⟩
  | elementSize => exact ⟨rfl, trivial⟩

end Operation

/-- Disposing of values goes through them in order, and to the end unless a disposal panics. -/
theorem Strategy.disposed_disposeAll (strategy : Strategy α) (past : List (HookCall α))
    (values : List α) :
    let calls := (strategy.disposeAll past values).2
    calls.filterMap HookCall.disposed? <+: values ∧
      ((∀ call ∈ calls, call.panic? = none) →
        calls.filterMap HookCall.disposed? = values ∧
          (strategy.disposeAll past values).1 = none) := by
  induction values generalizing past with
  | nil => exact ⟨List.prefix_rfl, fun _ => ⟨rfl, rfl⟩⟩
  | cons value values ih =>
    rcases hresidue : strategy.dispose past value with ⟨left, _ | text⟩
    · obtain ⟨hfirst, hcalm⟩ := ih (past ++ [.disposed value ⟨left, none⟩])
      simp only [disposeAll, hresidue, List.filterMap_cons, HookCall.disposed?,
        List.forall_mem_cons, List.cons_prefix_cons, true_and]
      refine ⟨hfirst, ?_⟩
      rintro ⟨-, hrest⟩
      obtain ⟨hall, hnone⟩ := hcalm hrest
      exact ⟨by rw [hall], hnone⟩
    · simp [disposeAll, hresidue, HookCall.disposed?]

section Run

variable {strategy : Strategy α} {size : Nat}

@[simp] theorem Recorded.calls_record [Journal ω] (message : Message) (memory : Recorded α ω) :
    (Journal.record message memory).calls = memory.calls := rfl

/-- The uses to which a lock can be put that nobody holds. -/
theorem Lock.Use.of_poisoning [Journal ω] {poisoned : Bool} {events : List (Event π α)}
    {next : Poisoning}
    (h : (Lock.poisoning : Lock ω Poisoning).Use ⟨false, poisoned⟩ events next) :
    (events = [] ∧ next = ⟨false, poisoned⟩) ∨
      (poisoned = true ∧ events = [.refused .poisoned] ∧ next = ⟨false, true⟩) ∨
      (poisoned = false ∧ ∃ manner, events = [.granted, .released manner] ∧
        next = ⟨false, manner == .unwinding⟩) := by
  cases h with
  | unasked => exact .inl ⟨rfl, rfl⟩
  | refused hacquire =>
    cases poisoned <;> simp at hacquire
    obtain ⟨⟨rfl, rfl⟩, -⟩ := hacquire
    exact .inr (.inl ⟨rfl, rfl, rfl⟩)
  | granted manner last hacquire =>
    cases poisoned <;> simp at hacquire
    obtain ⟨rfl, -⟩ := hacquire
    exact .inr (.inr ⟨rfl, manner, rfl, rfl⟩)

/-- An operation finds the lock that nobody holds, gets the answer that the poison calls for, and
leaves the lock poisoned if it was or if one of its hooks panicked under it. -/
theorem Operation.solo_of_poisoning [Journal ω] {operation : Operation α}
    {answer : Except LockError Unit} {past : List (HookCall α)} {chain : Chain α} {poisoned : Bool}
    {next : Poisoning} :
    let solo := (operation.routine size).solo strategy answer chain past
    (answer = .ok () ∨ ∃ cause, answer = .error cause ∧ solo.lockEvents = [.refused cause]) →
    (Lock.poisoning : Lock ω Poisoning).Use ⟨false, poisoned⟩ solo.lockEvents next →
    solo = (operation.routine size).solo strategy (Poisoning.answer poisoned) chain past ∧
      ∃ still, next = ⟨false, still⟩ ∧
        (still = true ↔ poisoned = true ∨ operation.PoisonsBy solo.calls) := by
  intro solo hanswer huse
  have houtside := operation.outside_routine size
  have hpoisons := operation.unwinding_iff_poisonsBy strategy size past chain
  rcases huse.of_poisoning with ⟨hevents, rfl⟩ | ⟨rfl, hevents, rfl⟩ | ⟨rfl, manner, hevents, rfl⟩
  · have hsame : ∀ other, solo = (operation.routine size).solo strategy other chain past := by
      rcases houtside.unasked_or_asks strategy past with hunasked | hasks
      · exact fun other => (hunasked answer other chain).1
      · -- Code that asks for the lock has something to tell of it.
        exfalso
        cases answer with
        | ok =>
          obtain ⟨manner, hgranted⟩ := hasks.granted chain
          cases hgranted.symm.trans hevents
        | error cause => cases (hasks.refused cause chain).symm.trans hevents
    refine ⟨hsame _, poisoned, rfl, ?_⟩
    have hcalm : ¬ operation.PoisonsBy solo.calls := by
      intro hpoisoned
      rw [hsame (.ok ())] at hpoisoned
      have hunwinding := hpoisons.2 hpoisoned
      rw [← hsame (.ok ()), hevents] at hunwinding
      cases hunwinding
    exact (or_iff_left hcalm).symm
  · rcases hanswer with rfl | ⟨cause, rfl, hrefused⟩
    · have hrefused : .refused .poisoned ∈ solo.lockEvents := by
        rw [hevents]
        exact List.mem_singleton_self _
      exact absurd hrefused (houtside.not_refused_of_granted strategy chain past .poisoned)
    · cases hrefused.symm.trans hevents
      exact ⟨rfl, true, rfl, by simp⟩
  · rcases hanswer with rfl | ⟨cause, rfl, hrefused⟩
    · refine ⟨rfl, manner == .unwinding, rfl, ?_⟩
      have hunwinding : .released .unwinding ∈ solo.lockEvents ↔ manner = .unwinding := by
        rw [hevents]
        simp [eq_comm]
      rw [or_iff_right Bool.false_ne_true, beq_iff_eq, ← hunwinding]
      exact hpoisons
    · cases hrefused.symm.trans hevents

variable [Journal ω]

/-- A step of a list whose lock can be poisoned. -/
theorem perform_of_poisoning {poisoned : Bool} {list : GuardedList (Recorded α ω) Poisoning α}
    {contents : Option (List α)}
    (hlist : Represents Lock.poisoning (· = ⟨false, poisoned⟩) strategy size list contents)
    (depth : Nat) (step : Step α) (past : List (HookCall α)) (memory : ω) :
    ∃ next rest still,
      let episode := ListMachine.episode strategy size (Poisoning.answer poisoned) past contents step
      perform depth step list ⟨past, memory⟩ =
        some ⟨episode.result, next, ⟨past ++ episode.calls, rest⟩⟩ ∧
      Represents Lock.poisoning (· = ⟨false, still⟩) strategy size next episode.after ∧
      (still = true ↔ poisoned = true ∨ episode.Poisons) := by
  cases hlist with
  | gone hooks =>
    have hgone : Represents Lock.poisoning (·.held = false) strategy size
        ⟨size, (Lock.poisoning : Lock ω Poisoning).recorded, none, hooks⟩ none := .gone hooks
    obtain ⟨answer, next, rest, -, hperform, hnext⟩ := perform_eq_episode Lock.lawful_poisoning
      trivial (.inl trivial) hgone depth step past memory
    cases step with
    | call operation =>
      refine ⟨next, rest, poisoned, hperform, ?_, ?_⟩
      · cases hnext with
        | gone hooks => exact .gone hooks
      · refine (or_iff_left ?_).symm
        rintro ⟨_, ⟨⟩, hpoisons⟩
        exact operation.not_poisonsBy_nil hpoisons
    | destroy =>
      refine ⟨next, rest, poisoned, hperform, ?_, ?_⟩
      · cases hnext with
        | gone hooks => exact .gone hooks
      · exact (or_iff_left (Episode.not_poisons_of_destroy rfl)).symm
  | @live cell elements hfree helements =>
    cases helements
    obtain ⟨state, chain⟩ := cell
    cases hfree
    cases step with
    | call operation =>
      obtain ⟨answer, state, rest, hanswer, huse, hserve⟩ :=
        serve_eq_solo Lock.poisoning strategy size depth operation ⟨⟨false, poisoned⟩, chain⟩ past
          memory fun _ => Lock.lawful_poisoning.answered rfl
      obtain ⟨hsolo, still, rfl, hstill⟩ := Operation.solo_of_poisoning hanswer huse
      dsimp only at hsolo hstill hserve
      have hturn := operation.turn_solo strategy size (Poisoning.answer poisoned) past chain
      rw [← hsolo] at hturn
      generalize (operation.routine size).solo strategy answer chain past = solo at *
      refine ⟨⟨size, Lock.poisoning.recorded, some ⟨⟨false, still⟩, solo.value⟩,
        some strategy.hooks⟩, rest, still, ?_, ?_, ?_⟩
      · simp only [perform, hserve, ListMachine.episode, ← hturn, Solo.turn]
      · simp only [ListMachine.episode, ← hturn, Solo.turn]
        exact .live rfl rfl
      · simp only [hstill, ListMachine.episode, ← hturn, Solo.turn, Episode.Poisons,
          Step.call.injEq, exists_eq_left']
    | destroy =>
      have hlive : Represents Lock.poisoning (·.held = false) strategy size
          ⟨size, (Lock.poisoning : Lock ω Poisoning).recorded, some ⟨⟨false, poisoned⟩, chain⟩,
            some strategy.hooks⟩ (some chain.toList) := .live rfl rfl
      obtain ⟨answer, next, rest, -, hperform, hnext⟩ := perform_eq_episode Lock.lawful_poisoning
        trivial (.inl trivial) hlive depth .destroy past memory
      refine ⟨next, rest, poisoned, hperform, ?_, ?_⟩
      · cases hnext with
        | gone hooks => exact .gone hooks
      · exact (or_iff_left (Episode.not_poisons_of_destroy rfl)).symm

/-- The steps of a list whose lock can be poisoned, one after another. -/
theorem session_of_poisoning {poisoned : Bool} {list : GuardedList (Recorded α ω) Poisoning α}
    {contents : Option (List α)}
    (hlist : Represents Lock.poisoning (· = ⟨false, poisoned⟩) strategy size list contents)
    (depth : Nat) (steps : List (Step α)) (memory : Recorded α ω) :
    ∃ episodes last left still, session depth steps list memory = some (episodes, last, left) ∧
      Represents Lock.poisoning (· = ⟨false, still⟩) strategy size last last.contents? ∧
      (still = true ↔ poisoned = true ∨ ∃ episode ∈ episodes, episode.Poisons) := by
  induction steps generalizing list contents memory poisoned with
  | nil =>
    refine ⟨[], list, memory, poisoned, rfl, ?_, by simp⟩
    rw [hlist.contents]
    exact hlist
  | cons step steps ih =>
    obtain ⟨past, middle⟩ := memory
    obtain ⟨next, rest, middling, hperform, hnext, hmiddling⟩ :=
      perform_of_poisoning hlist depth step past middle
    have hepisode := ListMachine.episode_eta strategy size (Poisoning.answer poisoned) past contents
      step
    generalize ListMachine.episode strategy size (Poisoning.answer poisoned) past contents step =
      episode at *
    obtain ⟨episodes, last, left, still, hsession, hlast, hstill⟩ :=
      ih hnext ⟨past ++ episode.calls, rest⟩
    refine ⟨episode :: episodes, last, left, still, ?_, hlast, ?_⟩
    · rw [session, hperform, Option.bind_some, hsession]
      simp only [Option.map_some, List.drop_left, hlist.contents, hnext.contents]
      rw [← hepisode]
    · simp only [hstill, hmiddling, or_assoc, List.mem_cons, exists_eq_or_imp]

/-- Once the lock is poisoned nothing changes any more: neither the elements nor the lock. -/
theorem session_of_poisoned (cell : Cell Poisoning (Chain α)) (hcell : cell.lock = ⟨false, true⟩)
    (depth : Nat) (operations : List (Operation α)) (memory : Recorded α ω) :
    let list : GuardedList (Recorded α ω) Poisoning α :=
      ⟨size, Lock.poisoning.recorded, some cell, some strategy.hooks⟩
    ∃ episodes left, session depth (operations.map .call) list memory =
        some (episodes, list, left) ∧
      ∀ episode ∈ episodes, episode.TurnedAway := by
  intro list
  have hlist : Represents Lock.poisoning (· = ⟨false, true⟩) strategy size list
      (some cell.value.toList) := .live hcell rfl
  induction operations generalizing memory with
  | nil => exact ⟨[], memory, rfl, nofun⟩
  | cons operation operations ih =>
    obtain ⟨past, middle⟩ := memory
    obtain ⟨next, rest, still, hperform, hnext, hstill⟩ :=
      perform_of_poisoning hlist depth (.call operation) past middle
    obtain ⟨hkept, haway⟩ :=
      operation.turnedAway_of_refused strategy size past cell.value.toList
    have hsame : next = list := by
      simp only [ListMachine.episode, Poisoning.answer, if_true, hkept] at hnext
      rw [hstill.2 (.inl rfl)] at hnext
      cases hnext with
      | @live cell' _ hfree helements =>
        obtain ⟨state, chain⟩ := cell
        obtain ⟨state', chain'⟩ := cell'
        cases hcell
        cases hfree
        cases Chain.toList_injective helements
        rfl
    obtain ⟨episodes, left, hsession, hall⟩ := ih ⟨past ++
      (operation.turn strategy size (.error .poisoned) past cell.value.toList).calls, rest⟩
    simp only [hsame, ListMachine.episode, Poisoning.answer, if_true] at hperform
    generalize operation.turn strategy size (.error .poisoned) past cell.value.toList = turn at *
    refine ⟨⟨.call operation, some cell.value.toList, turn.result, turn.calls,
      some cell.value.toList⟩ :: episodes, left, ?_, ?_⟩
    · rw [List.map_cons, session, hperform, Option.bind_some, hsession]
      simp only [Option.map_some, List.drop_left, hlist.contents]
    · rw [List.forall_mem_cons]
      exact ⟨⟨rfl, operation, rfl, haway⟩, hall⟩

/-- Destroying a list disposes of its elements in order, and of all of them unless a disposal
panics, however poisoned its lock is. -/
theorem destroy_of_recorded {lock : Lock ω σ} (cell : Cell σ (Chain α)) (memory : Recorded α ω) :
    ∃ outcome,
      (⟨size, lock.recorded, some cell, some strategy.hooks⟩ :
        GuardedList (Recorded α ω) σ α).destroy memory = some outcome ∧
      let calls := outcome.memory.calls.drop memory.calls.length
      calls.filterMap HookCall.disposed? <+: cell.value.toList ∧
      ((∀ call ∈ calls, call.panic? = none) → outcome.result = .value () ∧
        outcome.target.cell = none ∧ calls.filterMap HookCall.disposed? = cell.value.toList) := by
  obtain ⟨past, memory⟩ := memory
  obtain ⟨hfirst, hcalm⟩ := strategy.disposed_disposeAll past cell.value.toList
  have hfreed := freeAll_eq_disposeAll strategy cell.value 0 past (lock.destroy cell.lock memory)
  simp only [destroy, Cell.destroy, Lock.recorded, hfreed]
  generalize strategy.disposeAll past cell.value.toList = disposed at *
  obtain ⟨_ | text, calls⟩ := disposed
  · refine ⟨_, rfl, ?_⟩
    simp only [Recorded.calls_record, List.drop_left]
    exact ⟨hfirst, fun hquiet => ⟨trivial, trivial, (hcalm hquiet).1⟩⟩
  · refine ⟨_, rfl, ?_⟩
    simp only [List.drop_left]
    refine ⟨hfirst, fun hquiet => ?_⟩
    cases (hcalm hquiet).2

/-- Wherever a session of a new list has got to, its lock is free, and poisoned just when a hook
panicked that was called under it. Whatever is done with a poisoned list is refused and leaves
everything as it was, until the list is destroyed; then its elements are disposed of in order. -/
theorem poisoned_of_create {start : ω} {fresh : GuardedList (Recorded α ω) Poisoning α}
    {begun : Recorded α ω}
    (hcreate : create Lock.poisoning.recorded strategy.hooks size ⟨[], start⟩ = (.ok fresh, begun))
    (depth : Nat) (steps : List (Step α)) :
    ∃ episodes list memory, session depth steps fresh begun = some (episodes, list, memory) ∧
      ∀ cell, list.cell = some cell →
        cell.lock.held = false ∧
        (cell.lock.poisoned = true ↔ ∃ episode ∈ episodes, episode.Poisons) ∧
        (cell.lock.poisoned = true → ∀ operations : List (Operation α), ∃ later last left,
          session depth (operations.map .call) list memory = some (later, last, left) ∧
          (∀ episode ∈ later, episode.TurnedAway) ∧
          last.cell = some cell ∧
          ∃ outcome, last.destroy left = some outcome ∧
            last.drop left = some (outcome.result, outcome.memory) ∧
            let calls := outcome.memory.calls.drop left.calls.length
            calls.filterMap HookCall.disposed? <+: cell.value.toList ∧
            ((∀ call ∈ calls, call.panic? = none) → outcome.result = .value () ∧
              outcome.target.cell = none ∧
              calls.filterMap HookCall.disposed? = cell.value.toList)) := by
  obtain ⟨hfresh, -⟩ := represents_create Lock.unfailing_poisoning hcreate
  obtain ⟨episodes, list, memory, still, hsession, hlist, hstill⟩ :=
    session_of_poisoning hfresh depth steps begun
  refine ⟨episodes, list, memory, hsession, fun cell hcell => ?_⟩
  generalize list.contents? = contents at hlist
  cases hlist with
  | gone hooks => cases hcell
  | @live cell _ hfree helements =>
    cases hcell
    rw [hfree]
    refine ⟨rfl, by simpa using hstill, fun hpoisoned operations => ?_⟩
    rw [show still = true from hpoisoned] at hfree
    obtain ⟨later, left, hlater, haway⟩ :=
      session_of_poisoned cell hfree depth operations memory
    obtain ⟨outcome, hdestroy, hdisposed⟩ := destroy_of_recorded cell left
    refine ⟨later, _, left, hlater, haway, rfl, outcome, hdestroy, ?_, hdisposed⟩
    rw [drop, hdestroy]
    rfl

/-- An update that panics on its first disposal, three operations that are turned away, and the
end of the list. -/
theorem poisoned_of_create_brittle :
    let fresh := ⟨8, Lock.poisoning.recorded, some ⟨{}, .empty⟩, some Strategy.brittle.hooks⟩
    create Lock.poisoning.recorded Strategy.brittle.hooks 8 ⟨[], []⟩ =
      (.ok fresh, (⟨[], []⟩ : Recorded Nat (List Message))) ∧
    ∃ episodes list memory cell,
      session 0 [.call (.add 1), .call (.add 2), .call (.update 0 4)] fresh ⟨[], []⟩ =
        some (episodes, list, memory) ∧
      list.cell = some cell ∧ cell.lock.poisoned = true ∧ cell.value.toList = [0, 2] ∧
      (∃ episode ∈ episodes, episode.Poisons) ∧
      ∃ later last left, session 0 [.call (.add 6), .call (.get 9), .call .length] list memory =
          some (later, last, left) ∧
        (∀ episode ∈ later, episode.TurnedAway) ∧ last.cell = some cell ∧
        ∃ outcome, last.destroy left = some outcome ∧
          (outcome.memory.calls.drop left.calls.length).filterMap HookCall.disposed? = [0, 2] := by
  intro fresh
  have hcreate : create Lock.poisoning.recorded Strategy.brittle.hooks 8 ⟨[], []⟩ =
      (.ok fresh, (⟨[], []⟩ : Recorded Nat (List Message))) := rfl
  refine ⟨hcreate, ?_⟩
  obtain ⟨episodes, list, memory, hsession, hcell⟩ :=
    poisoned_of_create hcreate 0 [.call (.add 1), .call (.add 2), .call (.update 0 4)]
  cases hsession
  obtain ⟨-, hpoisoned, haway⟩ := hcell ⟨⟨false, true⟩, .link 0 (.link 2 .empty)⟩ rfl
  obtain ⟨later, last, left, hlater, hturned, hlast, outcome, hdestroy, -, -, hdisposed⟩ :=
    haway rfl [.add 6, .get 9, .length]
  refine ⟨_, _, _, _, rfl, rfl, rfl, rfl, hpoisoned.1 rfl, later, last, left, hlater, hturned, hlast,
    outcome, hdestroy, ?_⟩
  cases hlater
  cases hdestroy
  exact (hdisposed (by decide)).2.2

end Run

end GuardedList
